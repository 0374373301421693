import KopiDb.Core

/-!
# Skip list

The in-memory table.  The model keeps the bottom linked list, which holds every
node; the towers above it only shorten the walk to the same position.  The order
of the nodes and the byte count are fields of the structure.
-/

namespace KopiDb

/-- `SkipListNode::operator<`: keys ascending, the versions of a key descending. -/
def nodeLt (left right : Entry) : Bool :=
  if left.key = right.key then decide (right.txid < left.txid)
  else decide (left.key < right.key)

theorem nodeLt_iff {left right : Entry} :
    nodeLt left right ↔
      left.key < right.key ∨ (left.key = right.key ∧ right.txid < left.txid) := by
  unfold nodeLt
  split_ifs with hkey
  · simp [hkey]
  · simp [hkey]

theorem nodeLt_trans {first second third : Entry} (hleft : nodeLt first second)
    (hright : nodeLt second third) : nodeLt first third := by
  rw [nodeLt_iff] at hleft hright ⊢
  rcases hleft with hlt | ⟨heq, hlt⟩
  · rcases hright with hlt' | ⟨heq', -⟩
    · exact Or.inl (hlt.trans hlt')
    · exact Or.inl (heq' ▸ hlt)
  · rcases hright with hlt' | ⟨heq', hlt'⟩
    · exact Or.inl (heq ▸ hlt')
    · exact Or.inr ⟨heq.trans heq', hlt'.trans hlt⟩

/-- Nodes that are not ordered one way carry the same key and number or are
ordered the other way. -/
theorem nodeLt_or_same {left right : Entry} (hnot : ¬nodeLt left right) :
    (left.key = right.key ∧ left.txid = right.txid) ∨ nodeLt right left := by
  rw [nodeLt_iff] at hnot ⊢
  rcases lt_trichotomy left.key right.key with hlt | heq | hgt
  · exact absurd (Or.inl hlt) hnot
  · rcases lt_trichotomy left.txid right.txid with hlt | htxid | hgt
    · exact Or.inr (Or.inr ⟨heq.symm, hlt⟩)
    · exact Or.inl ⟨heq, htxid⟩
    · exact absurd (Or.inr ⟨heq, hgt⟩) hnot
  · exact Or.inr (Or.inl hgt)

/-- A run of nodes as the table links them: strictly ordered. -/
def NodesOrdered (nodes : List Entry) : Prop :=
  nodes.Pairwise fun left right => nodeLt left right

theorem NodesOrdered.sorted {nodes : List Entry} (hordered : NodesOrdered nodes) :
    Versions.Sorted nodes := by
  refine List.Pairwise.imp ?_ hordered
  intro left right hlt
  rw [nodeLt_iff] at hlt
  exact hlt.imp_right fun h => ⟨h.1, h.2.le⟩

/-- An ordered run holds at most one version of a key and number. -/
theorem NodesOrdered.distinct {nodes : List Entry} (hordered : NodesOrdered nodes) :
    nodes.Pairwise fun left right =>
      ¬(left.key = right.key ∧ left.txid = right.txid) := by
  refine List.Pairwise.imp ?_ hordered
  intro left right hlt hsame
  rw [nodeLt_iff] at hlt
  rcases hlt with hlt | ⟨-, hlt⟩
  · exact hlt.ne hsame.1
  · exact hlt.ne hsame.2.symm

structure SkipList where
  nodes : List Entry
  sizeBytes : ℕ
  ordered : NodesOrdered nodes
  accounted : sizeBytes = (nodes.map memSize).sum

/-- `SkipListIterator`: the node it stands on and the nodes linked after it. -/
structure SkipListIterator where
  rest : List Entry

namespace SkipListIterator

/-- The record under the iterator when `is_valid()` holds; a node with an empty
key does not count. -/
def current? (it : SkipListIterator) : Option Entry :=
  match it.rest with
  | [] => none
  | node :: _ => if node.key = [] then none else some node

def isValid (it : SkipListIterator) : Bool := it.current?.isSome

end SkipListIterator

namespace SkipList

def new : SkipList := ⟨[], 0, List.Pairwise.nil, rfl⟩

/-- The nodes before the place of `node`, as the descent of `put` walks over
them. -/
def smaller (nodes : List Entry) (node : Entry) : List Entry :=
  nodes.takeWhile fun other => nodeLt other node

/-- The candidate of `put` and the nodes after it. -/
def notSmaller (nodes : List Entry) (node : Entry) : List Entry :=
  nodes.dropWhile fun other => nodeLt other node

theorem smaller_append_notSmaller (nodes : List Entry) (node : Entry) :
    smaller nodes node ++ notSmaller nodes node = nodes :=
  List.takeWhile_append_dropWhile

private theorem lt_of_mem_smaller {nodes : List Entry} {node other : Entry}
    (hmem : other ∈ smaller nodes node) : nodeLt other node := by
  unfold smaller at hmem
  exact List.mem_takeWhile_imp (p := fun other => nodeLt other node) hmem

private theorem not_lt_candidate {nodes rest : List Entry} {node candidate : Entry}
    (hrest : notSmaller nodes node = candidate :: rest) : ¬nodeLt candidate node := by
  have hhead : (notSmaller nodes node).head? = some candidate := by rw [hrest]; rfl
  have hfalse := List.head?_dropWhile_not (fun other => nodeLt other node) nodes
  rw [show nodes.dropWhile (fun other => nodeLt other node) = notSmaller nodes node
    from rfl, hhead] at hfalse
  simpa using hfalse

/-- Replacing the value of a node keeps the order. -/
private theorem ordered_update {nodes rest : List Entry} {node candidate : Entry}
    (hordered : NodesOrdered nodes)
    (hrest : notSmaller nodes node = candidate :: rest) (value : Bytes) :
    NodesOrdered (smaller nodes node ++ { candidate with value := value } :: rest) := by
  have hsplit := smaller_append_notSmaller nodes node
  rw [hrest] at hsplit
  rw [NodesOrdered, ← hsplit] at hordered
  rw [List.pairwise_append, List.pairwise_cons] at hordered
  refine List.pairwise_append.mpr
    ⟨hordered.1, List.pairwise_cons.mpr ⟨?_, hordered.2.1.2⟩, ?_⟩
  · intro other hmem
    have hlt := hordered.2.1.1 other hmem
    rwa [nodeLt_iff] at hlt ⊢
  · intro first hfirst second hsecond
    rcases List.mem_cons.mp hsecond with rfl | hsecond
    · have hlt := hordered.2.2 first hfirst candidate List.mem_cons_self
      rwa [nodeLt_iff] at hlt ⊢
    · exact hordered.2.2 first hfirst second (List.mem_cons_of_mem _ hsecond)

/-- Linking a new node in front of the first node that is not smaller keeps the
order, unless that node has the same key and number. -/
private theorem ordered_insert {nodes : List Entry} (hordered : NodesOrdered nodes)
    (node : Entry)
    (hnew : ∀ candidate rest, notSmaller nodes node = candidate :: rest →
      ¬(candidate.key = node.key ∧ candidate.txid = node.txid)) :
    NodesOrdered (smaller nodes node ++ node :: notSmaller nodes node) := by
  have hsplit := smaller_append_notSmaller nodes node
  rw [NodesOrdered, ← hsplit, List.pairwise_append] at hordered
  have hafter : ∀ other ∈ notSmaller nodes node, nodeLt node other := by
    cases hrest : notSmaller nodes node with
    | nil => simp
    | cons candidate rest =>
        have hcandidate : nodeLt node candidate :=
          (nodeLt_or_same (not_lt_candidate hrest)).resolve_left
            (hnew candidate rest hrest)
        have htail := hordered.2.1
        rw [hrest, List.pairwise_cons] at htail
        intro other hmem
        rcases List.mem_cons.mp hmem with rfl | hmem
        · exact hcandidate
        · exact nodeLt_trans hcandidate (htail.1 other hmem)
  refine List.pairwise_append.mpr
    ⟨hordered.1, List.pairwise_cons.mpr ⟨hafter, hordered.2.1⟩, ?_⟩
  intro first hfirst second hsecond
  have hlt := lt_of_mem_smaller hfirst
  rcases List.mem_cons.mp hsecond with rfl | hsecond
  · exact hlt
  · exact nodeLt_trans hlt (hafter second hsecond)

private theorem accounted_split {table : SkipList} {node : Entry}
    {rest : List Entry} (hrest : notSmaller table.nodes node = rest) :
    table.sizeBytes =
      ((smaller table.nodes node).map memSize).sum + (rest.map memSize).sum := by
  rw [table.accounted, ← hrest, ← List.sum_append, ← List.map_append,
    smaller_append_notSmaller]

/-- `SkipList::put`: the value is replaced when the first node that is not
smaller has the same key and number, otherwise a node is linked before it. -/
def put (table : SkipList) (key value : Bytes) (trancId : ℕ) : SkipList :=
  let node : Entry := ⟨key, value, trancId⟩
  match hrest : notSmaller table.nodes node with
  | [] =>
      { nodes := smaller table.nodes node ++ [node]
        sizeBytes := table.sizeBytes + (key.length + value.length + 8)
        ordered := by
          have hnew := ordered_insert table.ordered node
            (by rw [hrest]; simp)
          rwa [hrest] at hnew
        accounted := by
          rw [accounted_split hrest]
          simp [memSize, node] }
  | candidate :: rest =>
      if hsame : candidate.key = key ∧ candidate.txid = trancId then
        { nodes := smaller table.nodes node ++ { candidate with value := value } :: rest
          sizeBytes := table.sizeBytes - candidate.value.length + value.length
          ordered := ordered_update table.ordered hrest value
          accounted := by
            rw [accounted_split hrest]
            simp only [List.map_cons, List.sum_cons, List.map_append, List.sum_append,
              memSize]
            omega }
      else
        { nodes := smaller table.nodes node ++ node :: candidate :: rest
          sizeBytes := table.sizeBytes + (key.length + value.length + 8)
          ordered := by
            have hnew := ordered_insert table.ordered node
              (by
                rw [hrest]
                rintro other others ⟨⟩
                exact hsame)
            rwa [hrest] at hnew
          accounted := by
            rw [accounted_split hrest]
            simp only [List.map_cons, List.sum_cons, List.map_append, List.sum_append,
              memSize, node]
            omega }

/-- The walk of `get` over the versions of the key. -/
def seekVisible (key : Bytes) (trancId : ℕ) (isAborted : ℕ → Bool) :
    List Entry → List Entry
  | [] => []
  | candidate :: rest =>
      if candidate.key = key then
        if trancId ≠ 0 ∧ candidate.txid > trancId then
          seekVisible key trancId isAborted rest
        else if isAborted candidate.txid then
          seekVisible key trancId isAborted rest
        else candidate :: rest
      else []

def get (table : SkipList) (key : Bytes) (trancId : ℕ) (isAborted : ℕ → Bool) :
    SkipListIterator :=
  ⟨seekVisible key trancId isAborted
    (table.nodes.dropWhile fun node => decide (node.key < key))⟩

/-- `SkipList::flush`: all nodes in order. -/
def flush (table : SkipList) : List Entry := table.nodes

def getSize (table : SkipList) : ℕ := table.sizeBytes

/-- `SkipList::clear` -/
def clear (_ : SkipList) : SkipList := new

theorem put_nodes (table : SkipList) (key value : Bytes) (trancId : ℕ) :
    (table.put key value trancId).nodes =
      smaller table.nodes ⟨key, value, trancId⟩ ++ ⟨key, value, trancId⟩ ::
        (notSmaller table.nodes ⟨key, value, trancId⟩).filter fun other =>
          !(decide (other.key = key) && decide (other.txid = trancId)) := by
  have hordered := table.ordered
  rw [NodesOrdered, ← smaller_append_notSmaller table.nodes ⟨key, value, trancId⟩,
    List.pairwise_append] at hordered
  have hafter := hordered.2.1
  unfold put
  dsimp only
  split
  next hrest => simp [hrest]
  next candidate rest hrest =>
      rw [hrest, List.pairwise_cons] at hafter
      have hkeep : ∀ other ∈ rest,
          nodeLt candidate other := hafter.1
      have hdistinct : ∀ other ∈ rest, ¬(other.key = key ∧ other.txid = trancId) := by
        rintro other hmem ⟨hkey, htxid⟩
        have hnot := not_lt_candidate hrest
        have hlt := hkeep other hmem
        rw [nodeLt_iff] at hnot hlt
        subst hkey htxid
        exact hnot hlt
      have hfilter : rest.filter (fun other =>
          !(decide (other.key = key) && decide (other.txid = trancId))) = rest := by
        rw [List.filter_eq_self]
        intro other hmem
        simpa [-not_and, not_and_or] using hdistinct other hmem
      have hnodes := congrArg (List.filter fun other : Entry =>
        !(decide (other.key = key) && decide (other.txid = trancId))) hrest
      split_ifs with hsame
      · obtain ⟨hkey, htxid⟩ := hsame
        rw [List.filter_cons_of_neg (by simp [hkey, htxid]), hfilter] at hnodes
        rw [hnodes]
        simp [hkey, htxid]
      · rw [List.filter_cons_of_pos (by simpa [-not_and, not_and_or] using hsame), hfilter]
          at hnodes
        rw [hnodes]

/-- Where `put` leaves the versions of a key and number: the new one replaces
its predecessor, every other one stays. -/
theorem versionsOf_put (table : SkipList) (key value : Bytes) (trancId : ℕ)
    (other : Bytes) (txid : ℕ) :
    Versions.versionsOf (table.put key value trancId).nodes other txid =
      if key = other ∧ trancId = txid then [⟨key, value, trancId⟩]
      else Versions.versionsOf table.nodes other txid := by
  have hsplit := smaller_append_notSmaller table.nodes ⟨key, value, trancId⟩
  rw [put_nodes, Versions.versionsOf_append, Versions.versionsOf_cons]
  split_ifs with hsame
  · obtain ⟨rfl, rfl⟩ := hsame
    have hsmaller : Versions.versionsOf
        (smaller table.nodes ⟨key, value, trancId⟩) key trancId = [] := by
      rw [List.eq_nil_iff_forall_not_mem]
      intro version hmem
      rw [Versions.mem_versionsOf] at hmem
      have hlt := lt_of_mem_smaller hmem.1
      rw [nodeLt_iff] at hlt
      rcases hlt with hlt | ⟨-, hlt⟩
      · exact hlt.ne hmem.2.1
      · exact hlt.ne hmem.2.2.symm
    rw [hsmaller]
    simp [Versions.versionsOf, List.filter_filter]
  · rw [← congrArg (Versions.versionsOf · other txid) hsplit,
      Versions.versionsOf_append]
    congr 1
    simp only [Versions.versionsOf, List.filter_filter]
    apply List.filter_congr
    intro version _
    by_cases hversion : version.key = other ∧ version.txid = txid
    · obtain ⟨rfl, rfl⟩ := hversion
      have hne : ¬(version.key = key ∧ version.txid = trancId) :=
        fun h => hsame ⟨h.1.symm, h.2.symm⟩
      simpa [-not_and, not_and_or] using hne
    · have hfalse : (decide (version.key = other) && decide (version.txid = txid)) =
          false := by simpa using hversion
      simp [hfalse]

theorem mem_put {table : SkipList} {key value : Bytes} {trancId : ℕ} {entry : Entry}
    (hmem : entry ∈ (table.put key value trancId).nodes) :
    entry = ⟨key, value, trancId⟩ ∨ entry ∈ table.nodes := by
  have hversion := Versions.mem_versionsOf.mpr ⟨hmem, rfl, rfl⟩
  rw [versionsOf_put] at hversion
  split_ifs at hversion
  · exact Or.inl (List.mem_singleton.mp hversion)
  · exact Or.inr (Versions.mem_versionsOf.mp hversion).1

private theorem seekVisible_head? {nodes : List Entry} (hsorted : Versions.Sorted nodes)
    {key : Bytes} (hfrom : ∀ node ∈ nodes, key ≤ node.key) (trancId : ℕ)
    (isAborted : ℕ → Bool) :
    (seekVisible key trancId isAborted nodes).head? =
      nodes.find? fun node => decide (node.key = key) &&
        Versions.visible trancId isAborted node.txid := by
  induction nodes with
  | nil => rfl
  | cons candidate rest ih =>
      have hrest := ih hsorted.tail fun node hmem =>
        hfrom node (List.mem_cons_of_mem _ hmem)
      rw [seekVisible]
      split_ifs with hkey hbound haborted
      · rw [hrest, List.find?_cons_of_neg]
        simp [Versions.visible, hbound.1, hbound.2]
      · rw [hrest, List.find?_cons_of_neg]
        simp [Versions.visible, haborted]
      · rw [List.find?_cons_of_pos]
        · rfl
        · simp only [Versions.visible, hkey]
          grind
      · have hlt : key < candidate.key :=
          lt_of_le_of_ne (hfrom candidate List.mem_cons_self) (Ne.symm hkey)
        symm
        rw [List.head?_nil, List.find?_eq_none]
        intro node hmem
        have hne : node.key ≠ key := by
          rcases List.mem_cons.mp hmem with rfl | hmem
          · exact hkey
          · exact (hlt.trans_le (hsorted.key_le hmem)).ne'
        simp [hne]

/-- `get` stands on the newest visible version of the key. -/
theorem get_rest_head? (table : SkipList) (key : Bytes) (trancId : ℕ)
    (isAborted : ℕ → Bool) :
    (table.get key trancId isAborted).rest.head? =
      Versions.read table.nodes key trancId isAborted := by
  have hsorted := table.ordered.sorted
  have hsplit := List.takeWhile_append_dropWhile
    (p := fun node : Entry => decide (node.key < key)) (l := table.nodes)
  have hfrom : ∀ node ∈ table.nodes.dropWhile fun node => decide (node.key < key),
      key ≤ node.key := by
    intro node hmem
    have hdrop : Versions.Sorted
        (table.nodes.dropWhile fun node => decide (node.key < key)) :=
      hsorted.sublist (List.dropWhile_sublist _)
    cases hhead : table.nodes.dropWhile fun node => decide (node.key < key) with
    | nil => simp [hhead] at hmem
    | cons first rest =>
        have hfalse := List.head?_dropWhile_not
          (fun node : Entry => decide (node.key < key)) table.nodes
        rw [hhead] at hfalse hmem hdrop
        have hfirst : key ≤ first.key := by simpa using hfalse
        rcases List.mem_cons.mp hmem with rfl | hmem
        · exact hfirst
        · exact hfirst.trans (hdrop.key_le hmem)
  rw [hsorted.read_eq_find?, get,
    seekVisible_head? (hsorted.sublist (List.dropWhile_sublist _)) hfrom]
  conv_rhs => rw [← hsplit]
  rw [List.find?_append]
  have hnone : (table.nodes.takeWhile fun node => decide (node.key < key)).find?
      (fun node => decide (node.key = key) &&
        Versions.visible trancId isAborted node.txid) = none := by
    rw [List.find?_eq_none]
    intro node hmem
    have hlt : node.key < key := by simpa using List.mem_takeWhile_imp hmem
    simp [hlt.ne]
  rw [hnone, Option.none_or]

/-- For a user key the iterator of `get` is valid exactly on a visible version. -/
theorem get_current? (table : SkipList) {key : Bytes} (hkey : key ≠ [])
    (trancId : ℕ) (isAborted : ℕ → Bool) :
    (table.get key trancId isAborted).current? =
      Versions.read table.nodes key trancId isAborted := by
  have hhead := get_rest_head? table key trancId isAborted
  unfold SkipListIterator.current?
  cases hrest : (table.get key trancId isAborted).rest with
  | nil => rw [← hhead, hrest, List.head?_nil]
  | cons node rest =>
      rw [hrest, List.head?_cons] at hhead
      have hnode := (Versions.read_eq_some hhead.symm).2.1
      simp only [← hhead]
      rw [if_neg (hnode ▸ hkey)]

end SkipList

end KopiDb

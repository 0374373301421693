import Mathlib.Data.List.Nodup
import Mathlib.Logic.Function.Basic

/-!
# Doubly linked lists

Nodes that are linked both ways behind a first one.  A node is linked in or out by changing the
pointers of its neighbours, and every other node keeps its own.
-/

namespace DoublyLinked

variable {ι : Type*}

/-- The pointers of the nodes to the next one and back to the one before. -/
structure Links (ι : Type*) where
  next : ι → Option ι
  prev : ι → Option ι

/-- The nodes that are linked behind a first one. -/
def Linked (links : Links ι) : ι → List ι → Prop
  | first, [] => links.next first = none
  | first, second :: rest =>
      links.next first = some second ∧ links.prev second = some first ∧ Linked links second rest

theorem getLastD_append (front back : List ι) (first : ι) :
    (front ++ back).getLastD first = back.getLastD (front.getLastD first) := by
  induction front generalizing first with
  | nil => rfl
  | cons second front ih => rw [List.cons_append, List.getLastD_cons, List.getLastD_cons, ih]

/-- A node of the list is the last one of what stands before the others. -/
theorem exists_split {first node : ι} {rest : List ι} (hmem : node ∈ first :: rest) :
    ∃ front back, rest = front ++ back ∧ front.getLastD first = node := by
  rcases List.mem_cons.mp hmem with rfl | hmem
  · exact ⟨[], rest, rfl, rfl⟩
  · obtain ⟨front, back, rfl⟩ := List.append_of_mem hmem
    exact ⟨front ++ [node], back, by simp, by rw [getLastD_append]; rfl⟩

namespace Linked

variable {links links' : Links ι} {first node : ι} {front back rest : List ι}

/-- The list depends on the pointers forward of its nodes and back of those behind the first. -/
theorem congr (hlinked : Linked links first rest)
    (hnext : ∀ id ∈ first :: rest, links'.next id = links.next id)
    (hprev : ∀ id ∈ rest, links'.prev id = links.prev id) : Linked links' first rest := by
  induction rest generalizing first with
  | nil => exact (hnext first List.mem_cons_self).trans hlinked
  | cons second rest ih =>
      obtain ⟨hforward, hback, hrest⟩ := hlinked
      have htail := ih hrest (fun id hmem => hnext id (List.mem_cons_of_mem _ hmem))
        (fun id hmem => hprev id (List.mem_cons_of_mem _ hmem))
      exact ⟨(hnext first List.mem_cons_self).trans hforward,
        (hprev second List.mem_cons_self).trans hback, htail⟩

theorem drop (hlinked : Linked links first (front ++ back)) :
    Linked links (front.getLastD first) back := by
  induction front generalizing first with
  | nil => exact hlinked
  | cons second front ih =>
      rw [List.getLastD_cons]
      exact ih hlinked.2.2

theorem next_eq (hlinked : Linked links first rest) : links.next first = rest.head? := by
  cases rest with
  | nil => exact hlinked
  | cons second rest => exact hlinked.1

theorem prev_eq (hlinked : Linked links first (front ++ node :: back)) :
    links.prev node = some (front.getLastD first) :=
  hlinked.drop.2.1

/-- In a list without repetition the pointers back are the inverse of those forward. -/
theorem next_iff_prev {other : ι} (hlinked : Linked links first rest)
    (hnodup : (first :: rest).Nodup) (hmem : node ∈ first :: rest) (hother : other ∈ rest) :
    links.next node = some other ↔ links.prev other = some node := by
  constructor
  · intro hnext
    obtain ⟨front, back, rfl, rfl⟩ := exists_split hmem
    rw [hlinked.drop.next_eq] at hnext
    cases back with
    | nil => simp at hnext
    | cons second back =>
        rw [List.head?_cons, Option.some.injEq] at hnext
        subst hnext
        exact hlinked.prev_eq
  · intro hprev
    obtain ⟨front, back, rfl⟩ := List.append_of_mem hother
    rw [hlinked.prev_eq, Option.some.injEq] at hprev
    rw [← hprev]
    exact hlinked.drop.1

end Linked

variable {links : Links ι} {first node : ι} {front back : List ι}

/-- What follows the last node of a front is not in the front. -/
private theorem next_last_ne {second : ι} (hlinked : Linked links second (front ++ back))
    (hnodup : (second :: (front ++ back)).Nodup) :
    links.next (front.getLastD second) ≠ some second := by
  rw [hlinked.drop.next_eq]
  intro hhead
  have hmem := List.mem_of_mem_head? (Option.mem_def.mpr hhead)
  exact (List.nodup_cons.mp hnodup).1 (List.mem_append_right _ hmem)

variable [DecidableEq ι]

/-- Links a node in behind another one. -/
def linkIn (links : Links ι) (pre node : ι) : Links ι where
  next := Function.update (Function.update links.next node (links.next pre)) pre (some node)
  prev := match links.next pre with
    | none => Function.update links.prev node (some pre)
    | some after => Function.update (Function.update links.prev node (some pre)) after (some node)

/-- Links out the node that stands behind another one. -/
def linkOut (links : Links ι) (pre node : ι) : Links ι where
  next := Function.update links.next pre (links.next node)
  prev := match links.next node with
    | none => links.prev
    | some after => Function.update links.prev after (some pre)

theorem linkIn_next_of_ne (pre : ι) {id : ι} (hpre : id ≠ pre) (hnode : id ≠ node) :
    (linkIn links pre node).next id = links.next id :=
  (Function.update_of_ne hpre _ _).trans (Function.update_of_ne hnode _ _)

theorem linkIn_next_self {pre : ι} (hne : pre ≠ node) :
    (linkIn links pre node).next node = links.next pre :=
  (Function.update_of_ne hne.symm _ _).trans (Function.update_self _ _ _)

theorem linkIn_prev_of_ne (pre : ι) {id : ι} (hnode : id ≠ node) (hafter : links.next pre ≠ some id) :
    (linkIn links pre node).prev id = links.prev id := by
  unfold linkIn
  dsimp only
  cases hnext : links.next pre with
  | none => exact Function.update_of_ne hnode _ _
  | some after =>
      have hne : id ≠ after := fun heq => hafter (heq ▸ hnext)
      dsimp only
      rw [Function.update_of_ne hne, Function.update_of_ne hnode]

theorem linkOut_prev_of_ne (pre : ι) {id : ι} (hafter : links.next node ≠ some id) :
    (linkOut links pre node).prev id = links.prev id := by
  unfold linkOut
  dsimp only
  cases hnext : links.next node with
  | none => rfl
  | some after =>
      have hne : id ≠ after := fun heq => hafter (heq ▸ hnext)
      exact Function.update_of_ne hne _ _

private theorem linkIn_first (hlinked : Linked links first back) (hnodup : (first :: back).Nodup)
    (hnew : node ∉ first :: back) : Linked (linkIn links first node) first (node :: back) := by
  have hne : first ≠ node := fun heq => hnew (heq ▸ List.mem_cons_self)
  have hnext : (linkIn links first node).next first = some node := Function.update_self _ _ _
  cases back with
  | nil =>
      have hlast : links.next first = none := hlinked
      refine ⟨hnext, ?_, ?_⟩
      · simp only [linkIn, hlast, Function.update_self]
      · exact (linkIn_next_self hne).trans hlast
  | cons after back =>
      obtain ⟨hforward, hback, hrest⟩ := hlinked
      have hafter : node ≠ after := fun heq => hnew (heq ▸ by simp)
      refine ⟨hnext, ?_, ?_, ?_, hrest.congr ?_ ?_⟩
      · simp only [linkIn, hforward]
        rw [Function.update_of_ne hafter, Function.update_self]
      · exact (linkIn_next_self hne).trans hforward
      · simp only [linkIn, hforward, Function.update_self]
      · intro id hmem
        exact linkIn_next_of_ne first (fun heq => (List.nodup_cons.mp hnodup).1 (heq ▸ hmem))
          (fun heq => hnew (heq ▸ List.mem_cons_of_mem _ hmem))
      · intro id hmem
        apply linkIn_prev_of_ne first
        · intro heq
          exact hnew (heq ▸ List.mem_cons_of_mem _ (List.mem_cons_of_mem _ hmem))
        · rw [hforward, ne_eq, Option.some.injEq]
          intro heq
          exact (List.nodup_cons.mp (List.nodup_cons.mp hnodup).2).1 (heq ▸ hmem)

theorem Linked.insert (hlinked : Linked links first (front ++ back))
    (hnodup : (first :: (front ++ back)).Nodup) (hnew : node ∉ first :: (front ++ back)) :
    Linked (linkIn links (front.getLastD first) node) first (front ++ node :: back) := by
  induction front generalizing first with
  | nil => exact linkIn_first hlinked hnodup hnew
  | cons second front ih =>
      obtain ⟨hforward, hback, hrest⟩ := hlinked
      obtain ⟨hfirst, hnodup⟩ := List.nodup_cons.mp hnodup
      have hnew' : node ∉ second :: (front ++ back) := fun hmem =>
        hnew (List.mem_cons_of_mem _ hmem)
      have hlast : front.getLastD second ∈ second :: (front ++ back) :=
        List.mem_append_left back List.getLastD_mem_cons
      rw [List.getLastD_cons]
      have hpre : first ≠ front.getLastD second := fun heq => hfirst (heq ▸ hlast)
      have hnode : first ≠ node := fun heq => hnew (heq ▸ List.mem_cons_self)
      have hnode' : second ≠ node := fun heq => hnew' (heq ▸ List.mem_cons_self)
      refine ⟨?_, ?_, ih hrest hnodup hnew'⟩
      · rw [linkIn_next_of_ne _ hpre hnode, hforward]
      · rw [linkIn_prev_of_ne _ hnode' (next_last_ne hrest hnodup), hback]

private theorem linkOut_first (hlinked : Linked links first (node :: back))
    (hnodup : (first :: node :: back).Nodup) : Linked (linkOut links first node) first back := by
  obtain ⟨-, -, hrest⟩ := hlinked
  have hnext : (linkOut links first node).next first = links.next node :=
    Function.update_self _ _ _
  cases back with
  | nil => exact hnext.trans hrest
  | cons after back =>
      obtain ⟨hforward, -, hrest⟩ := hrest
      refine ⟨hnext.trans hforward, ?_, hrest.congr ?_ ?_⟩
      · simp only [linkOut, hforward, Function.update_self]
      · intro id hmem
        refine Function.update_of_ne ?_ _ _
        rintro rfl
        exact (List.nodup_cons.mp hnodup).1 (List.mem_cons_of_mem _ hmem)
      · intro id hmem
        apply linkOut_prev_of_ne first
        rw [hforward, ne_eq, Option.some.injEq]
        rintro rfl
        exact (List.nodup_cons.mp (List.nodup_cons.mp (List.nodup_cons.mp hnodup).2).2).1 hmem

theorem Linked.remove (hlinked : Linked links first (front ++ node :: back))
    (hnodup : (first :: (front ++ node :: back)).Nodup) :
    Linked (linkOut links (front.getLastD first) node) first (front ++ back) := by
  induction front generalizing first with
  | nil => exact linkOut_first hlinked hnodup
  | cons second front ih =>
      obtain ⟨hforward, hback, hrest⟩ := hlinked
      obtain ⟨hfirst, hnodup⟩ := List.nodup_cons.mp hnodup
      have hlast : front.getLastD second ∈ second :: (front ++ node :: back) :=
        List.mem_append_left (node :: back) List.getLastD_mem_cons
      have hpre : first ≠ front.getLastD second := fun heq => hfirst (heq ▸ hlast)
      rw [List.getLastD_cons]
      refine ⟨?_, ?_, ih hrest hnodup⟩
      · exact (Function.update_of_ne hpre _ _).trans hforward
      · rw [linkOut_prev_of_ne _ ?_, hback]
        have hsplit : (front ++ [node]).getLastD second = node := by
          rw [getLastD_append]
          rfl
        rw [← hsplit]
        have hlinked : Linked links second (front ++ [node] ++ back) := by
          rwa [List.append_assoc]
        exact next_last_ne hlinked (by rwa [List.append_assoc])

end DoublyLinked

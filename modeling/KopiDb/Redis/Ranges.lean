import KopiDb.Redis.Runs

/-!
# Slices of lists and sorted sets

Both range commands count negative indices from the end and clamp the two bounds.  The last
bound is compared as an unsigned number, so that one before the first element is taken for
one behind the last.
-/

namespace KopiDb.Redis

/-- An index, counted from the end if it is negative. -/
def normalIndex (size : ℕ) (index : ℤ) : ℤ := if index < 0 then index + size else index

/-- The elements at the positions from `max 0 start` to `min (size - 1) stop`. -/
def rangeOf {α : Type*} (elements : List α) (start stop : ℤ) : List α :=
  let first := max 0 (normalIndex elements.length start)
  let last := min (elements.length - 1 : ℤ) (normalIndex elements.length stop)
  (elements.drop first.toNat).take (last - first + 1).toNat

/-- Bounds with which the code is right: the last one is not before the first element, or
the slice is empty in any case. -/
def GoodBounds (size : ℕ) (start stop : ℤ) : Prop :=
  -(size : ℤ) ≤ stop ∨ (size : ℤ) ≤ start ∨ size = 0

/-- The bounds in the arithmetic of the source, with indices of type `int` and a size of type
`size_t`. -/
def intBounds (size : ℕ) (start stop : ℤ) : ℤ × ℤ :=
  let start := if start < 0 then wrapInt 32 ((start + size) % 2 ^ 64) else start
  let stop := if stop < 0 then wrapInt 32 ((stop + size) % 2 ^ 64) else stop
  let start := if start < 0 then 0 else start
  let stop := if (size : ℤ) ≤ stop % 2 ^ 64 then wrapInt 32 (size - 1) else stop
  (start, stop)

/-- The slice between these bounds. -/
def intSlice (elements : List Bytes) (start stop : ℤ) : Bytes :=
  let bounds := intBounds elements.length start stop
  if bounds.1 > bounds.2 then arrayReply []
  else arrayReply ((elements.drop bounds.1.toNat).take (bounds.2 - bounds.1 + 1).toNat)

private theorem wrapInt_self {number : ℤ} (hlow : -2 ^ 31 ≤ number) (hhigh : number < 2 ^ 31) :
    wrapInt 32 number = number := Int.bmod_eq_of_le hlow hhigh

private theorem wrapInt_mod {number : ℤ} (hlow : -2 ^ 31 ≤ number) (hhigh : number < 2 ^ 31) :
    wrapInt 32 (number % 2 ^ 64) = number := by
  have hmod : wrapInt 32 (number % 2 ^ 64) = wrapInt 32 number := by
    rw [wrapInt, wrapInt, Int.bmod_eq_bmod_iff_bmod_sub_eq_zero]
    apply Int.bmod_eq_zero_of_dvd
    have hdvd : (2 ^ 64 : ℤ) ∣ number % 2 ^ 64 - number := (Int.mod_modEq number (2 ^ 64)).symm.dvd
    exact Dvd.dvd.trans (by norm_num) hdvd
  rw [hmod, wrapInt_self hlow hhigh]

/-- The bounds that the code computes. -/
theorem rangeSlice_eq (elements : List Bytes) (start stop : ℤ) :
    let size : ℤ := elements.length
    let first := max 0 (normalIndex elements.length start)
    let last := if normalIndex elements.length stop < 0 then size - 1
      else min (size - 1) (normalIndex elements.length stop)
    rangeSlice elements start stop =
      arrayReply ((elements.drop first.toNat).take (last - first + 1).toNat) := by
  intro size first last
  have hfirst : (if normalIndex elements.length start < 0 then 0
      else normalIndex elements.length start) = first := by
    simp only [first]
    split_ifs <;> omega
  have hlast : (if normalIndex elements.length stop < 0 ∨
      size ≤ normalIndex elements.length stop then size - 1
      else normalIndex elements.length stop) = last := by
    simp only [last]
    split_ifs <;> omega
  have hslice : rangeSlice elements start stop = if first > last then arrayReply []
      else arrayReply ((elements.drop first.toNat).take (last - first + 1).toNat) := by
    rw [← hfirst, ← hlast]
    rfl
  rw [hslice]
  by_cases hempty : first > last
  · have hzero : (last - first + 1).toNat = 0 := by omega
    rw [if_pos hempty, hzero, List.take_zero]
  · rw [if_neg hempty]

theorem intReply_inj {left right : ℤ} (heq : intReply left = intReply right) : left = right :=
  toDecimal_inj (List.append_cancel_left (List.append_cancel_right heq))

private theorem carriageReturn_not_mem_decimal (number : ℕ) : 13 ∉ decimal number := by
  intro hmem
  have hdigit := List.all_eq_true.mp (isDigit_decimal number).2 13 hmem
  revert hdigit
  decide

private theorem decimal_inj {number number' : ℕ} (heq : decimal number = decimal number') :
    number = number' := by
  rw [← parseDecimal_decimal number, heq, parseDecimal_decimal]

/-- A bulk string says where it ends. -/
theorem bulkReply_append_inj {left right rest rest' : Bytes}
    (heq : bulkReply left ++ rest = bulkReply right ++ rest') : left = right ∧ rest = rest' := by
  have hform : ∀ value rest, bulkReply value ++ rest =
      36 :: (decimal value.length ++ 13 :: (10 :: (value ++ 13 :: 10 :: rest))) := by
    intro value rest
    simp only [bulkReply, List.append_assoc]
    rfl
  rw [hform, hform] at heq
  obtain ⟨hlength, htail⟩ := append_cons_inj (carriageReturn_not_mem_decimal _)
    (carriageReturn_not_mem_decimal _) (List.cons.inj heq).2
  obtain ⟨rfl, hrest⟩ := List.append_inj (List.cons.inj htail).2 (decimal_inj hlength)
  exact ⟨rfl, (List.cons.inj (List.cons.inj hrest).2).2⟩

theorem arrayReply_inj {values values' : List Bytes} :
    arrayReply values = arrayReply values' ↔ values = values' := by
  have hform : ∀ values : List Bytes, arrayReply values =
      42 :: (decimal values.length ++ 13 :: (10 :: values.flatMap bulkReply)) := by
    intro values
    simp only [arrayReply, List.append_assoc]
    rfl
  have hbulks : ∀ values values' : List Bytes, values.length = values'.length →
      values.flatMap bulkReply = values'.flatMap bulkReply → values = values' := by
    intro values
    induction values with
    | nil => exact fun values' hlength _ => (List.eq_nil_of_length_eq_zero hlength.symm).symm
    | cons value rest ih =>
        intro values' hlength heq
        cases values' with
        | nil => cases hlength
        | cons value' rest' =>
            rw [List.flatMap_cons, List.flatMap_cons] at heq
            obtain ⟨rfl, hrest⟩ := bulkReply_append_inj heq
            rw [ih rest' (Nat.succ.inj hlength) hrest]
  constructor
  · intro heq
    rw [hform, hform] at heq
    obtain ⟨hlength, htail⟩ := append_cons_inj (carriageReturn_not_mem_decimal _)
      (carriageReturn_not_mem_decimal _) (List.cons.inj heq).2
    exact hbulks _ _ (decimal_inj hlength) (List.cons.inj htail).2
  · rintro rfl
    rfl

/-- Below 2^31 elements no conversion changes anything. -/
theorem rangeSlice_eq_intSlice {elements : List Bytes} {start stop : ℤ}
    (hsize : elements.length < 2 ^ 31) (hstart : -2 ^ 31 ≤ start ∧ start < 2 ^ 31)
    (hstop : -2 ^ 31 ≤ stop ∧ stop < 2 ^ 31) :
    rangeSlice elements start stop = intSlice elements start stop := by
  have hindex : ∀ index : ℤ, -2 ^ 31 ≤ index ∧ index < 2 ^ 31 →
      (if index < 0 then wrapInt 32 ((index + elements.length) % 2 ^ 64) else index) =
        if index < 0 then index + elements.length else index := by
    intro index hrange
    split_ifs with hneg
    · exact wrapInt_mod (by omega) (by omega)
    · rfl
  have hlast : wrapInt 32 ((elements.length : ℤ) - 1) = elements.length - 1 :=
    wrapInt_self (by omega) (by omega)
  have hclamp : ∀ index : ℤ, -2 ^ 31 ≤ index ∧ index < 2 ^ 31 →
      (index < 0 ∨ (elements.length : ℤ) ≤ index ↔ (elements.length : ℤ) ≤ index % 2 ^ 64) := by
    intro index hrange
    omega
  unfold rangeSlice intSlice intBounds
  dsimp only
  rw [hindex start hstart, hindex stop hstop, hlast]
  simp only [hclamp (if stop < 0 then stop + elements.length else stop) (by split_ifs <;> omega)]

/-- The code slices like the reference exactly with good bounds. -/
theorem rangeSlice_eq_iff (elements : List Bytes) (start stop : ℤ) :
    (if elements = [] then arrayReply [] else rangeSlice elements start stop) =
      arrayReply (rangeOf elements start stop) ↔ GoodBounds elements.length start stop := by
  by_cases hne : elements = []
  · subst hne
    rw [if_pos rfl, rangeOf, List.drop_nil, List.take_nil]
    exact iff_of_true rfl (Or.inr (Or.inr rfl))
  · have hpos := List.length_pos_iff.mpr hne
    rw [if_neg hne, rangeSlice_eq, GoodBounds, or_iff_left hpos.ne']
    by_cases hstop : normalIndex elements.length stop < 0
    · -- The reference is empty, and the code goes on to the end.
      have hbefore : stop < -(elements.length : ℤ) := by
        rw [normalIndex] at hstop
        split_ifs at hstop <;> omega
      have hnil : rangeOf elements start stop = [] := by
        have hzero : (min (elements.length - 1 : ℤ) (normalIndex elements.length stop) -
            max 0 (normalIndex elements.length start) + 1).toNat = 0 := by omega
        rw [rangeOf, hzero, List.take_zero]
      rw [hnil, arrayReply_inj, if_pos hstop, or_iff_right (by omega),
        ← List.length_eq_zero_iff, List.length_take, List.length_drop, normalIndex]
      split_ifs <;> omega
    · rw [if_neg hstop]
      refine iff_of_true rfl (Or.inl ?_)
      rw [normalIndex] at hstop
      split_ifs at hstop <;> omega

/-! ## The commands -/

/-- The elements of a list, none if there is no list. -/
def listElements (store : Store) (key : Bytes) : List Bytes :=
  ((store.get key).map fun list => split list redisListSeparator).getD []

/-- The members of a sorted set in the order of its score records. -/
def zsetElements (store : Store) (key : Bytes) : List Bytes :=
  (store.scan (getZsetScorePreffix key)).map Prod.snd

section

variable {key : Bytes} {store : Store} {now start stop : ℤ}

theorem run_readCommand_live (hlive : isExpired (store.get (getExplireKey key)) now = .ok false)
    (clean : Store → Store × Except Err Unit) (expired : Bytes)
    (read : Store → Except Err Bytes) :
    (readCommand key clean expired read).run now store = (store, read store) := by
  rw [readCommand, checkExpiry, Command.run, hlive]
  rfl

/-- With fewer than 2^31 elements, as many as an `int` counts, both range commands answer with
the elements between the bounds exactly when the bounds are good, and no conversion of the source
changes a bound. -/
theorem range_slices_iff {startStr stopStr : Bytes}
    (hlive : isExpired (store.get (getExplireKey key)) now = .ok false)
    (hlist : (listElements store key).length < 2 ^ 31)
    (hzset : (zsetElements store key).length < 2 ^ 31)
    (hstart : stoi startStr = .ok start) (hstop : stoi stopStr = .ok stop) (op : Bytes)
    (rest : List Bytes) :
    ((redisLrange key start stop).run now store =
        (store, .ok (arrayReply (rangeOf (listElements store key) start stop))) ↔
      GoodBounds (listElements store key).length start stop) ∧
    ((redisZrange (op :: key :: startStr :: stopStr :: rest)).run now store =
        (store, .ok (arrayReply (rangeOf (zsetElements store key) start stop))) ↔
      GoodBounds (zsetElements store key).length start stop) ∧
    ∀ elements ∈ [listElements store key, zsetElements store key],
      rangeSlice elements start stop = intSlice elements start stop := by
  have hreply : ∀ reply reply' : Bytes,
      ((store, Except.ok reply) : Store × Except Err Bytes) = (store, .ok reply') ↔
        reply = reply' := by
    intro reply reply'
    simp
  refine ⟨?_, ?_, ?_⟩
  · have hrun : (redisLrange key start stop).run now store =
        (store, .ok (if listElements store key = [] then arrayReply []
          else rangeSlice (listElements store key) start stop)) := by
      rw [redisLrange, run_readCommand_live hlive, listElements]
      cases store.get key with
      | none => rfl
      | some list =>
          dsimp only [Option.map_some, Option.getD_some]
          split_ifs <;> rfl
    rw [hrun, hreply, rangeSlice_eq_iff]
  · have hrun : (redisZrange (op :: key :: startStr :: stopStr :: rest)).run now store =
        (store, .ok (if zsetElements store key = [] then arrayReply []
          else rangeSlice (zsetElements store key) start stop)) := by
      rw [redisZrange]
      dsimp only
      rw [hstart, hstop]
      change (readCommand _ _ _ _).run now store = _
      rw [run_readCommand_live hlive, zsetElements]
      split_ifs <;> rfl
    rw [hrun, hreply, rangeSlice_eq_iff]
  · refine List.forall_mem_cons.mpr ⟨?_, List.forall_mem_singleton.mpr ?_⟩
    · exact rangeSlice_eq_intSlice hlist (stoi_range hstart) (stoi_range hstop)
    · exact rangeSlice_eq_intSlice hzset (stoi_range hstart) (stoi_range hstop)

end

/-- A list of one element, and the range that ends before it. -/
theorem range_slices_fail :
    let store := (runCommands [(0, redisRpush (ascii "k") (ascii "a"))] ∅).1
    ((redisLrange (ascii "k") 0 (-2)).run 0 store).2 = .ok (arrayReply [ascii "a"]) ∧
      rangeOf (listElements store (ascii "k")) 0 (-2) = [] ∧
      ¬(redisLrange (ascii "k") 0 (-2)).run 0 store =
        (store, .ok (arrayReply (rangeOf (listElements store (ascii "k")) 0 (-2)))) := by
  intro store
  have hreply : ((redisLrange (ascii "k") 0 (-2)).run 0 store).2 =
      .ok (arrayReply [ascii "a"]) := by decide
  have hrange : rangeOf (listElements store (ascii "k")) 0 (-2) = [] := by decide
  refine ⟨hreply, hrange, fun heq => ?_⟩
  rw [heq, hrange] at hreply
  revert hreply
  decide

/-- A list of two elements, and a start before the first one. -/
theorem range_slices_iff_sample :
    let store := (runCommands [(0, redisRpush (ascii "k") (ascii "a")),
      (0, redisRpush (ascii "k") (ascii "b"))] ∅).1
    (redisLrange (ascii "k") (-5) (-2)).run 0 store =
      (store, .ok (arrayReply (rangeOf (listElements store (ascii "k")) (-5) (-2)))) :=
  (@range_slices_iff (ascii "k") _ 0 (-5) (-2) (ascii "-5") (ascii "-2") rfl (by decide)
    (by decide) (by decide) (by decide) [] []).1.mpr (Or.inl (by decide))

end KopiDb.Redis

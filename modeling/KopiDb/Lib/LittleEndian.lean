import Mathlib

/-!
# Little-endian numbers

A number of a fixed width as its base-256 digits, the lowest one first.  Writing keeps the
number modulo the range of the width, and reading is its inverse there.
-/

namespace KopiDb

/-- The lowest `width` bytes of a number. -/
def toLe : ℕ → ℕ → List (Fin 256)
  | 0, _ => []
  | width + 1, value => ⟨value % 256, Nat.mod_lt _ (by decide)⟩ :: toLe width (value / 256)

def ofLe : List (Fin 256) → ℕ
  | [] => 0
  | byte :: rest => byte.val + 256 * ofLe rest

@[simp]
theorem length_toLe (width value : ℕ) : (toLe width value).length = width := by
  induction width generalizing value with
  | zero => rfl
  | succ width ih => exact congrArg (· + 1) (ih _)

theorem ofLe_lt (bytes : List (Fin 256)) : ofLe bytes < 256 ^ bytes.length := by
  induction bytes with
  | nil => exact Nat.one_pos
  | cons byte rest ih =>
      rw [ofLe, List.length_cons, Nat.pow_succ]
      have hbyte := byte.isLt
      omega

/-- What is read back is the number modulo the range. -/
theorem ofLe_toLe_mod (width value : ℕ) : ofLe (toLe width value) = value % 256 ^ width := by
  induction width generalizing value with
  | zero => rw [toLe, ofLe, pow_zero, Nat.mod_one]
  | succ width ih => rw [toLe, ofLe, ih, Nat.pow_succ', Nat.mod_mul]

theorem ofLe_toLe {width value : ℕ} (hvalue : value < 256 ^ width) :
    ofLe (toLe width value) = value := by
  rw [ofLe_toLe_mod, Nat.mod_eq_of_lt hvalue]

theorem toLe_ofLe (bytes : List (Fin 256)) : toLe bytes.length (ofLe bytes) = bytes := by
  induction bytes with
  | nil => rfl
  | cons byte rest ih =>
      have hmod : (byte.val + 256 * ofLe rest) % 256 = byte.val := by
        rw [Nat.add_mul_mod_self_left, Nat.mod_eq_of_lt byte.isLt]
      have hdiv : (byte.val + 256 * ofLe rest) / 256 = ofLe rest := by
        rw [Nat.add_mul_div_left _ _ (by decide), Nat.div_eq_of_lt byte.isLt, Nat.zero_add]
      rw [List.length_cons, ofLe, toLe, hdiv, ih]
      exact congrArg (· :: rest) (Fin.ext hmod)

/-- Bytes of a known width are those of the number they stand for. -/
theorem toLe_ofLe_of_length {width : ℕ} {bytes : List (Fin 256)}
    (hlength : bytes.length = width) : toLe width (ofLe bytes) = bytes := by
  rw [← hlength, toLe_ofLe]

theorem ofLe_append (left right : List (Fin 256)) :
    ofLe (left ++ right) = ofLe left + 256 ^ left.length * ofLe right := by
  induction left with
  | nil => rw [List.nil_append, ofLe, List.length_nil, pow_zero, Nat.one_mul, Nat.zero_add]
  | cons byte rest ih =>
      rw [List.cons_append, ofLe, ih, ofLe, List.length_cons, Nat.pow_succ', Nat.mul_add,
        Nat.mul_assoc, Nat.add_assoc]

/-- The low and the high part of a number. -/
theorem toLe_add (low high value : ℕ) :
    toLe (low + high) value = toLe low value ++ toLe high (value / 256 ^ low) := by
  induction low generalizing value with
  | zero => rw [Nat.zero_add, toLe, List.nil_append, pow_zero, Nat.div_one]
  | succ low ih =>
      rw [Nat.succ_add, toLe, ih, toLe, List.cons_append, Nat.div_div_eq_div_mul, Nat.pow_succ']

/-! ## Words -/

/-- Numbers of one width, one after the other. -/
def wordsLe (width : ℕ) (words : List ℕ) : List (Fin 256) := words.flatMap (toLe width)

theorem wordsLe_append (width : ℕ) (left right : List ℕ) :
    wordsLe width (left ++ right) = wordsLe width left ++ wordsLe width right :=
  List.flatMap_append

theorem length_wordsLe (width : ℕ) (words : List ℕ) :
    (wordsLe width words).length = width * words.length := by
  induction words with
  | nil => rfl
  | cons word rest ih =>
      rw [wordsLe, List.flatMap_cons, List.length_append, length_toLe, ← wordsLe, ih,
        List.length_cons, Nat.mul_succ, Nat.add_comm]

theorem drop_wordsLe (width count : ℕ) (words : List ℕ) :
    (wordsLe width words).drop (width * count) = wordsLe width (words.drop count) := by
  induction count generalizing words with
  | zero => rfl
  | succ count ih =>
      cases words with
      | nil => rw [List.drop_nil, wordsLe, List.flatMap_nil, List.drop_nil]
      | cons word rest =>
          rw [Nat.mul_succ, Nat.add_comm, ← List.drop_drop, List.drop_succ_cons, ← ih rest,
            wordsLe, List.flatMap_cons, List.drop_left' (length_toLe _ _), wordsLe]

theorem take_wordsLe (width count : ℕ) (words : List ℕ) :
    (wordsLe width words).take (width * count) = wordsLe width (words.take count) := by
  have hsplit : wordsLe width (words.take count) ++ wordsLe width (words.drop count) =
      wordsLe width words := by
    rw [← wordsLe_append, List.take_append_drop]
  rw [← drop_wordsLe] at hsplit
  exact (List.append_cancel_right
    (hsplit.trans (List.take_append_drop (width * count) _).symm)).symm

/-- Bytes in a whole number of words are the words they stand for. -/
theorem exists_wordsLe {width : ℕ} (bytes : List (Fin 256))
    (hwhole : bytes.length % width = 0) (hwidth : 0 < width) :
    ∃ words, (∀ word ∈ words, word < 256 ^ width) ∧ bytes = wordsLe width words := by
  induction hcount : bytes.length / width generalizing bytes with
  | zero =>
      have hlength : bytes.length = 0 := by
        rw [← Nat.div_add_mod bytes.length width, hcount, hwhole, Nat.mul_zero]
      exact ⟨[], List.forall_mem_nil _, List.length_eq_zero_iff.mp hlength⟩
  | succ count ih =>
      have hlength : width * (count + 1) = bytes.length := by
        rw [← hcount, Nat.mul_div_cancel' (Nat.dvd_of_mod_eq_zero hwhole)]
      have hle : width ≤ bytes.length := by
        rw [← hlength, Nat.mul_succ]
        exact Nat.le_add_left _ _
      have hrest : (bytes.drop width).length = width * count := by
        rw [List.length_drop, ← hlength, Nat.mul_succ, Nat.add_sub_cancel]
      have htake : (bytes.take width).length = width := List.length_take_of_le hle
      obtain ⟨words, hwords, hbytes⟩ := ih (bytes.drop width)
        (by rw [hrest, Nat.mul_mod_right])
        (by rw [hrest, Nat.mul_div_cancel_left _ hwidth])
      refine ⟨ofLe (bytes.take width) :: words, List.forall_mem_cons.mpr ⟨?_, hwords⟩, ?_⟩
      · have hlt := ofLe_lt (bytes.take width)
        rwa [htake] at hlt
      · rw [wordsLe, List.flatMap_cons, toLe_ofLe_of_length htake, ← wordsLe, ← hbytes,
          List.take_append_drop]

end KopiDb

import KopiDb.FileOps
import KopiDb.Redis.Store

/-!
# Numbers and separated lists in strings

Arguments and stored values are strings, and commands read numbers out of them with the
conversions of the standard library.  Lists are stored with a separator between the
elements and taken apart with `std::getline`.
-/

namespace KopiDb.Redis

/-! ## Numbers -/

/-- `strtol` with base ten: white space, a sign and the digits that follow. -/
def strtol (text : Bytes) : Option ℤ :=
  let text := text.dropWhile isSpace
  let negative := decide (text.head? = some 45)
  let text := if text.head? = some 43 ∨ text.head? = some 45 then text.drop 1 else text
  let digits := text.takeWhile isDigit
  if digits.isEmpty then none
  else some (if negative then -(parseDecimal digits : ℤ) else parseDecimal digits)

/-- `std::stoi`, `std::stol` and `std::stoll`, which differ in their name and range. -/
def stringTo (name : String) (bits : ℕ) (text : Bytes) : Except Err ℤ :=
  match strtol text with
  | none => .error (.logicError name)
  | some number =>
      if -2 ^ (bits - 1) ≤ number ∧ number < 2 ^ (bits - 1) then .ok number
      else .error (.outOfRange name)

def stoi : Bytes → Except Err ℤ := stringTo "stoi" 32

def stol : Bytes → Except Err ℤ := stringTo "stol" 64

def stoll : Bytes → Except Err ℤ := stringTo "stoll" 64

/-- `std::to_string` of a signed number. -/
def toDecimal (number : ℤ) : Bytes :=
  if number < 0 then 45 :: decimal number.natAbs else decimal number.natAbs

/-- A sum in a signed type of that many bits, as the machine computes it. -/
def wrapInt (bits : ℕ) (number : ℤ) : ℤ := Int.bmod number (2 ^ bits)

/-- What `std::stoi` returns is an `int`. -/
theorem stoi_range {text : Bytes} {number : ℤ} (hnumber : stoi text = .ok number) :
    -2 ^ 31 ≤ number ∧ number < 2 ^ 31 := by
  rw [stoi, stringTo] at hnumber
  cases htext : strtol text with
  | none =>
      rw [htext] at hnumber
      cases hnumber
  | some found =>
      rw [htext] at hnumber
      dsimp only at hnumber
      split_ifs at hnumber with hrange
      rw [← Except.ok.inj hnumber]
      exact hrange

/-- A number in front of other characters. -/
theorem strtol_decimal (number : ℕ) {rest : Bytes} (hrest : rest.takeWhile isDigit = []) :
    strtol (decimal number ++ rest) = some (number : ℤ) := by
  obtain ⟨hne, hdigits⟩ := isDigit_decimal number
  obtain ⟨first, more, hdecimal⟩ := List.exists_cons_of_ne_nil hne
  have hdigits := List.all_eq_true.mp hdigits
  have hfirst := of_decide_eq_true (hdigits first (hdecimal ▸ List.mem_cons_self))
  have hdrop : (decimal number ++ rest).dropWhile isSpace = decimal number ++ rest := by
    rw [hdecimal, List.cons_append, List.dropWhile_cons_of_neg]
    rw [isSpace, decide_eq_true_iff]
    omega
  have hhead : (decimal number ++ rest).head? = some first := by
    rw [hdecimal]
    rfl
  have htake : (decimal number ++ rest).takeWhile isDigit = decimal number := by
    rw [List.takeWhile_append_of_pos hdigits, hrest, List.append_nil]
  have hsigns : first ≠ 43 ∧ first ≠ 45 := by omega
  have hsigned : ¬((some first : Option (Fin 256)) = some 43 ∨ some first = some 45) := by
    simp [hsigns]
  have hempty : (decimal number).isEmpty = false := by
    rw [hdecimal]
    rfl
  unfold strtol
  dsimp only
  rw [hdrop, hhead, if_neg hsigned, htake, parseDecimal_decimal, hempty]
  simp [hsigns.2]

theorem stoi_decimal_append {number : ℕ} (hrange : number < 2 ^ 31) {rest : Bytes}
    (hrest : rest.takeWhile isDigit = []) : stoi (decimal number ++ rest) = .ok number := by
  rw [stoi, stringTo, strtol_decimal number hrest]
  dsimp only
  rw [if_pos ⟨by omega, by omega⟩]

/-- A number of members is read back. -/
theorem stoi_toDecimal {number : ℕ} (hrange : number < 2 ^ 31) :
    stoi (toDecimal number) = .ok number := by
  rw [toDecimal, if_neg (by omega), Int.natAbs_natCast, ← List.append_nil (decimal number)]
  exact stoi_decimal_append hrange rfl

theorem toDecimal_inj {left right : ℤ} (heq : toDecimal left = toDecimal right) :
    left = right := by
  have hdigits : ∀ number : ℕ, ∀ rest : Bytes, decimal number ≠ 45 :: rest := by
    intro number rest heq
    have hdigit := List.all_eq_true.mp (isDigit_decimal number).2 45 (heq ▸ List.mem_cons_self)
    revert hdigit
    decide
  have hnatural : ∀ {number number' : ℕ}, decimal number = decimal number' →
      number = number' := by
    intro number number' heq
    rw [← parseDecimal_decimal number, heq, parseDecimal_decimal]
  unfold toDecimal at heq
  split_ifs at heq with hleft hright hright
  · have habs := hnatural (List.cons.inj heq).2
    omega
  · exact absurd heq.symm (hdigits _ _)
  · exact absurd heq (hdigits _ _)
  · have habs := hnatural heq
    omega

/-- `double`, which stays abstract: `std::stod`, and the conversions to `uint64_t` of a
number and of its sum with a `long`. -/
structure DoubleArith where
  Double : Type
  stod : Bytes → Except Err Double
  toUint64 : Double → ℕ
  addToUint64 : ℤ → Double → ℕ

/-- `double` on whole numbers, for runs on fixed inputs. -/
def wholeArith : DoubleArith where
  Double := ℤ
  stod := stoll
  toUint64 := Int.toNat
  addToUint64 := fun number other => (number + other).toNat

/-! ## Separated lists -/

/-- `split`: the loop over `std::getline` finds no last element that is empty. -/
def split (text : Bytes) (delimiter : Fin 256) : List Bytes :=
  let tokens := text.splitOn delimiter
  if tokens.getLast? = some [] then tokens.dropLast else tokens

def join (elements : List Bytes) (delimiter : Fin 256) : Bytes :=
  [delimiter].intercalate elements

/-- What a list without separators in its elements is after it was stored: an empty last
element is lost. -/
theorem split_join {elements : List Bytes} {delimiter : Fin 256}
    (hfree : ∀ element ∈ elements, delimiter ∉ element) :
    split (join elements delimiter) delimiter =
      if elements.getLast? = some [] then elements.dropLast else elements := by
  unfold split join
  cases elements with
  | nil => rfl
  | cons head tail =>
      rw [List.splitOn_intercalate delimiter hfree (List.cons_ne_nil head tail)]

theorem join_cons {element : Bytes} {elements : List Bytes} (delimiter : Fin 256)
    (hne : elements ≠ []) :
    join (element :: elements) delimiter =
      element ++ delimiter :: join elements delimiter := by
  rw [join, List.intercalate_cons_of_ne_nil hne, List.append_assoc, List.singleton_append]
  rfl

theorem join_concat {element : Bytes} {elements : List Bytes} (delimiter : Fin 256)
    (hne : elements ≠ []) :
    join (elements ++ [element]) delimiter =
      join elements delimiter ++ delimiter :: element := by
  induction elements with
  | nil => exact absurd rfl hne
  | cons head tail ih =>
      by_cases htail : tail = []
      · subst htail
        rw [List.singleton_append, join_cons _ (List.cons_ne_nil _ _), join, join,
          List.intercalate_singleton, List.intercalate_singleton]
      · rw [List.cons_append, join_cons _ (List.append_ne_nil_of_left_ne_nil htail _),
          ih htail, join_cons _ htail, List.append_assoc, List.cons_append]

/-- Only the empty list and the list of one empty element are stored as nothing. -/
theorem join_eq_nil_iff {elements : List Bytes} {delimiter : Fin 256} :
    join elements delimiter = [] ↔ elements = [] ∨ elements = [[]] := by
  cases elements with
  | nil => simp [join, List.intercalate_nil]
  | cons head tail =>
      by_cases htail : tail = []
      · subst htail
        simp [join]
      · rw [join_cons _ htail]
        simp [htail]

/-- Text up to the first separator is determined. -/
theorem append_cons_inj {delimiter : Fin 256} {left left' right right' : Bytes}
    (hleft : delimiter ∉ left) (hleft' : delimiter ∉ left')
    (heq : left ++ delimiter :: right = left' ++ delimiter :: right') :
    left = left' ∧ right = right' := by
  induction left generalizing left' with
  | nil =>
      cases left' with
      | nil => exact ⟨rfl, (List.cons.inj heq).2⟩
      | cons head tail =>
          exact absurd ((List.cons.inj heq).1 ▸ List.mem_cons_self) hleft'
  | cons head tail ih =>
      cases left' with
      | nil => exact absurd ((List.cons.inj heq).1 ▸ List.mem_cons_self) hleft
      | cons head' tail' =>
          obtain ⟨rfl, htail⟩ := List.cons.inj heq
          rw [List.mem_cons, not_or] at hleft hleft'
          obtain ⟨rfl, hright⟩ := ih hleft.2 hleft'.2 htail
          exact ⟨rfl, hright⟩

end KopiDb.Redis

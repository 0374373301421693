import Mathlib.Data.List.Basic

/-!
# Values read one after another

A reader takes one value off the front of a word.  Where it takes exactly what an encoder
wrote, words can be put together without anything between them, and are taken apart again.
-/

namespace Framed

variable {α β : Type*} {read : List α → Option (β × List α)} {encode : β → List α}

/-- The reader takes off the front what the encoder wrote for the value. -/
def ReadsBack (read : List α → Option (β × List α)) (encode : β → List α) (value : β) : Prop :=
  ∀ rest, read (encode value ++ rest) = some (value, rest)

/-- Read so many values. -/
def readMany (read : List α → Option (β × List α)) : ℕ → List α → Option (List β × List α)
  | 0, word => some ([], word)
  | count + 1, word =>
      (read word).bind fun first =>
        (readMany read count first.2).map fun others => (first.1 :: others.1, others.2)

/-- Read values up to the end of the word, at most `fuel` of them. -/
def readAll (read : List α → Option (β × List α)) : ℕ → List α → Option (List β)
  | _, [] => some []
  | 0, _ => none
  | fuel + 1, word =>
      (read word).bind fun first => (readAll read fuel first.2).map fun others => first.1 :: others

theorem readMany_flatMap {values : List β} (hvalues : ∀ value ∈ values, ReadsBack read encode value)
    (rest : List α) :
    readMany read values.length (values.flatMap encode ++ rest) = some (values, rest) := by
  induction values with
  | nil => rfl
  | cons value values ih =>
      obtain ⟨hvalue, hvalues⟩ := List.forall_mem_cons.mp hvalues
      rw [List.length_cons, readMany, List.flatMap_cons, List.append_assoc, hvalue,
        Option.bind_some, ih hvalues]
      rfl

theorem length_le_flatMap {values : List β} (hnil : ∀ value ∈ values, encode value ≠ []) :
    values.length ≤ (values.flatMap encode).length := by
  induction values with
  | nil => exact Nat.le_refl _
  | cons value values ih =>
      obtain ⟨hvalue, hvalues⟩ := List.forall_mem_cons.mp hnil
      rw [List.flatMap_cons, List.length_append, List.length_cons, Nat.add_comm]
      exact Nat.add_le_add (List.length_pos_of_ne_nil hvalue) (ih hvalues)

/-- A whole word is taken apart into the values that were written. -/
theorem readAll_flatMap {values : List β} (hvalues : ∀ value ∈ values, ReadsBack read encode value)
    (hnil : ∀ value ∈ values, encode value ≠ []) {fuel : ℕ} (hfuel : values.length ≤ fuel) :
    readAll read fuel (values.flatMap encode) = some values := by
  induction values generalizing fuel with
  | nil => rw [List.flatMap_nil, readAll]
  | cons value values ih =>
      obtain ⟨hvalue, hvalues⟩ := List.forall_mem_cons.mp hvalues
      obtain ⟨hfirst, hnil⟩ := List.forall_mem_cons.mp hnil
      cases fuel with
      | zero => cases hfuel
      | succ fuel =>
          obtain ⟨char, word, hword⟩ := List.exists_cons_of_ne_nil hfirst
          have hread := hvalue (values.flatMap encode)
          rw [List.flatMap_cons, hword, List.cons_append, readAll, ← List.cons_append, ← hword,
            hread, Option.bind_some, ih hvalues hnil (Nat.le_of_succ_le_succ hfuel)]
          · rfl
          · exact List.cons_ne_nil _ _

end Framed

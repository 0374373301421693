import Mathlib.Order.Cover
import Mathlib.Data.List.Lex
import Mathlib.Order.Lattice

/-!
# Words with a common front

Words over an ordered alphabet in lexicographic order.  The words that start with a given
front stand together, and the front and its successor bound them.
-/

namespace Prefixes

variable {α : Type*} [LinearOrder α]

theorem nil_le (word : List α) : [] ≤ word := not_lt.mp (List.not_lt_nil word)

theorem cons_le_cons {head other : α} {left right : List α} :
    head :: left ≤ other :: right ↔ head < other ∨ head = other ∧ left ≤ right := by
  rw [← not_lt, List.cons_lt_cons_iff, not_or, not_lt, not_and, not_lt]
  constructor
  · rintro ⟨hle, htail⟩
    exact hle.lt_or_eq.imp_right fun heq => ⟨heq, htail heq.symm⟩
  · rintro (hlt | ⟨rfl, hle⟩)
    · exact ⟨hlt.le, fun heq => absurd heq hlt.ne'⟩
    · exact ⟨le_rfl, fun _ => hle⟩

/-- Cutting two words at one place keeps their order. -/
theorem take_le_take {left right : List α} (hle : left ≤ right) (count : ℕ) :
    left.take count ≤ right.take count := by
  induction count generalizing left right with
  | zero => simp
  | succ count ih =>
      cases left with
      | nil =>
          rw [List.take_nil]
          exact nil_le _
      | cons head left =>
          cases right with
          | nil => exact absurd hle (by simp)
          | cons other right =>
              rw [List.take_succ_cons, List.take_succ_cons, cons_le_cons]
              exact (cons_le_cons.mp hle).imp_right fun h => ⟨h.1, ih h.2⟩

theorem append_lt_append_left (front left right : List α) :
    front ++ left < front ++ right ↔ left < right := by
  induction front with
  | nil => rfl
  | cons char front ih => simp [ih]

/-- What is not after a word with some continuation is before the word or continues it. -/
theorem lt_or_prefix_of_le {word tail other : List α} (hle : other ≤ word ++ tail) :
    other < word ∨ word <+: other := by
  induction word generalizing other with
  | nil => exact Or.inr List.nil_prefix
  | cons char word ih =>
      cases other with
      | nil => exact Or.inl (List.nil_lt_cons _ _)
      | cons head other =>
          rw [List.cons_append, ← not_lt, List.cons_lt_cons_iff, not_or, not_and, not_lt,
            not_lt] at hle
          rw [List.cons_lt_cons_iff, List.cons_prefix_cons]
          rcases hle.1.lt_or_eq with hlt | rfl
          · exact Or.inl (Or.inl hlt)
          · rcases ih (hle.2 rfl) with hlt | hprefix
            · exact Or.inl (Or.inr ⟨rfl, hlt⟩)
            · exact Or.inr ⟨rfl, hprefix⟩

/-- The largest letter repeated bounds only the words that start with it. -/
theorem replicate_le_iff {top : α} (htop : ∀ letter, letter ≤ top) (count : ℕ) (word : List α) :
    List.replicate count top ≤ word ↔ List.replicate count top <+: word := by
  induction count generalizing word with
  | zero => exact iff_of_true (nil_le word) List.nil_prefix
  | succ count ih =>
      cases word with
      | nil => simp [List.replicate_succ]
      | cons head word =>
          rw [List.replicate_succ, cons_le_cons, List.cons_prefix_cons, ih,
            or_iff_right (htop head).not_gt]

/-- The words that start with `front`, a letter and largest letters are those from there up
to `front` with the next letter. -/
theorem prefix_iff_of_covBy {top last next : α} (htop : ∀ letter, letter ≤ top)
    (hnext : last ⋖ next) (front : List α) (count : ℕ) (word : List α) :
    front ++ last :: List.replicate count top <+: word ↔
      front ++ last :: List.replicate count top ≤ word ∧ word < front ++ [next] := by
  induction front generalizing word with
  | nil =>
      cases word with
      | nil => simp
      | cons head word =>
          have hlt : head :: word < [next] ↔ head ≤ last := by
            rw [List.cons_lt_cons_iff]
            constructor
            · rintro (hlt | ⟨-, hnil⟩)
              · exact hnext.le_of_lt hlt
              · exact absurd hnil (List.not_lt_nil _)
            · exact fun hle => Or.inl (hle.trans_lt hnext.lt)
          rw [List.nil_append, List.nil_append, List.cons_prefix_cons, cons_le_cons, hlt,
            replicate_le_iff htop]
          constructor
          · rintro ⟨rfl, hprefix⟩
            exact ⟨Or.inr ⟨rfl, hprefix⟩, le_rfl⟩
          · rintro ⟨hlt | heq, hle⟩
            · exact absurd hle hlt.not_ge
            · exact heq
  | cons letter front ih =>
      cases word with
      | nil => simp
      | cons head word =>
          rw [List.cons_append, List.cons_append, List.cons_prefix_cons, cons_le_cons,
            List.cons_lt_cons_iff, ih]
          constructor
          · rintro ⟨rfl, hle, hlt⟩
            exact ⟨Or.inr ⟨rfl, hle⟩, Or.inr ⟨rfl, hlt⟩⟩
          · rintro ⟨hlt | ⟨rfl, hle⟩, hgt | ⟨heq, hlt'⟩⟩
            · exact absurd hgt hlt.asymm
            · exact absurd heq hlt.ne'
            · exact absurd hgt (lt_irrefl _)
            · exact ⟨rfl, hle, hlt'⟩

end Prefixes

/-!
# Totals

The sum of a number over the items of a list.
-/

namespace BlockExchange

def total {α : Type} (f : α → Nat) (xs : List α) : Nat :=
  xs.foldr (fun x n => f x + n) 0

@[simp] theorem total_nil {α : Type} (f : α → Nat) : total f [] = 0 := rfl

@[simp] theorem total_cons {α : Type} (f : α → Nat) (x : α) (xs : List α) :
    total f (x :: xs) = f x + total f xs := rfl

@[simp] theorem total_append {α : Type} (f : α → Nat) (xs ys : List α) :
    total f (xs ++ ys) = total f xs + total f ys := by
  induction xs with
  | nil => simp
  | cons x xs ih => simp [ih, Nat.add_assoc]

theorem le_total_of_mem {α : Type} {xs : List α} {x : α} (h : x ∈ xs) (f : α → Nat) :
    f x ≤ total f xs := by
  obtain ⟨before, after, rfl⟩ := List.append_of_mem h
  rw [total_append, total_cons]
  omega

/-- The length of lists put one after the other. -/
theorem length_flatMap_total {α β : Type} (g : α → List β) (xs : List α) :
    (xs.flatMap g).length = total (fun x => (g x).length) xs := by
  induction xs with
  | nil => rfl
  | cons x xs ih => simp [ih]

end BlockExchange

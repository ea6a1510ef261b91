/-!
# Tables

A `Table` maps keys to values. It is a list of pairs with distinct keys, in the order in which the
keys were first set; setting a key anew keeps its place. `get?_set` and `get?_erase` say what each
operation does to a lookup.
-/

namespace BlockExchange

structure Table (α β : Type) where
  pairs : List (α × β) := []
  nodup_keys : (pairs.map Prod.fst).Nodup := by simp

namespace Table

variable {α β : Type}

def empty : Table α β := {}

instance : Inhabited (Table α β) := ⟨empty⟩

def keys (t : Table α β) : List α :=
  t.pairs.map Prod.fst

def size (t : Table α β) : Nat :=
  t.pairs.length

def isEmpty (t : Table α β) : Bool :=
  t.pairs.isEmpty

variable [DecidableEq α]

def get? (t : Table α β) (a : α) : Option β :=
  t.pairs.lookup a

def contains (t : Table α β) (a : α) : Bool :=
  (t.get? a).isSome

def replaced (pairs : List (α × β)) (a : α) (b : β) : List (α × β) :=
  pairs.map fun p => if p.1 = a then (a, b) else p

theorem keys_replaced (pairs : List (α × β)) (a : α) (b : β) :
    (replaced pairs a b).map Prod.fst = pairs.map Prod.fst := by
  simp only [replaced, List.map_map]
  apply List.map_congr_left
  intro p _
  by_cases h : p.1 = a <;> simp [h]

def set (t : Table α β) (a : α) (b : β) : Table α β :=
  if h : a ∈ t.keys then
    ⟨replaced t.pairs a b, by rw [keys_replaced]; exact t.nodup_keys⟩
  else
    ⟨t.pairs ++ [(a, b)], by
      simp only [keys, List.mem_map, not_exists, not_and] at h
      simp only [List.map_append, List.map_cons, List.map_nil, List.nodup_append,
        t.nodup_keys, List.nodup_cons, List.not_mem_nil, not_false_eq_true, List.nodup_nil,
        and_self, true_and, List.mem_map, List.mem_singleton]
      rintro _ ⟨p, hp, rfl⟩ _ rfl he
      exact h p hp he⟩

def erase (t : Table α β) (a : α) : Table α β :=
  ⟨t.pairs.filter (·.1 ≠ a), List.Nodup.sublist (List.filter_sublist.map _) t.nodup_keys⟩

theorem lookup_pair (k : α) (v : β) (pairs : List (α × β)) (x : α) :
    ((k, v) :: pairs).lookup x = if x = k then some v else pairs.lookup x := by
  by_cases h : x = k
  · simp [h]
  · simp [List.lookup_cons, h, beq_eq_false_iff_ne.mpr h]

theorem lookup_eq_none {pairs : List (α × β)} {a : α} (h : a ∉ pairs.map Prod.fst) :
    pairs.lookup a = none := by
  induction pairs with
  | nil => rfl
  | cons p pairs ih =>
    obtain ⟨k, v⟩ := p
    simp only [List.map_cons, List.mem_cons, not_or] at h
    rw [lookup_pair, if_neg h.1, ih h.2]

theorem lookup_append (xs ys : List (α × β)) (a : α) :
    (xs ++ ys).lookup a = (xs.lookup a).or (ys.lookup a) := by
  induction xs with
  | nil => simp
  | cons p xs ih =>
    obtain ⟨k, v⟩ := p
    rw [List.cons_append, lookup_pair, lookup_pair, ih]
    split <;> simp

theorem lookup_replaced_of_ne (pairs : List (α × β)) {a x : α} (b : β) (h : x ≠ a) :
    (replaced pairs a b).lookup x = pairs.lookup x := by
  induction pairs with
  | nil => rfl
  | cons p pairs ih =>
    obtain ⟨k, v⟩ := p
    have hr : replaced ((k, v) :: pairs) a b =
        (if k = a then (a, b) else (k, v)) :: replaced pairs a b := rfl
    rw [hr]
    by_cases hk : k = a
    · subst hk
      rw [if_pos rfl, lookup_pair, lookup_pair, if_neg h, if_neg h, ih]
    · rw [if_neg hk, lookup_pair, lookup_pair, ih]

theorem lookup_replaced_self {pairs : List (α × β)} {a : α} (h : a ∈ pairs.map Prod.fst) (b : β) :
    (replaced pairs a b).lookup a = some b := by
  induction pairs with
  | nil => simp at h
  | cons p pairs ih =>
    obtain ⟨k, v⟩ := p
    have hr : replaced ((k, v) :: pairs) a b =
        (if k = a then (a, b) else (k, v)) :: replaced pairs a b := rfl
    rw [hr]
    by_cases hk : k = a
    · rw [if_pos hk, lookup_pair, if_pos rfl]
    · rw [if_neg hk, lookup_pair, if_neg (Ne.symm hk), ih]
      rcases List.mem_cons.mp h with h | h
      · exact absurd h.symm hk
      · exact h

theorem lookup_filter_ne (pairs : List (α × β)) {a x : α} (h : x ≠ a) :
    (pairs.filter (·.1 ≠ a)).lookup x = pairs.lookup x := by
  induction pairs with
  | nil => rfl
  | cons p pairs ih =>
    obtain ⟨k, v⟩ := p
    by_cases hk : k = a
    · subst hk
      rw [List.filter_cons_of_neg (by simp), ih, lookup_pair, if_neg h]
    · rw [List.filter_cons_of_pos (by simpa using hk), lookup_pair, lookup_pair, ih]

theorem get?_set (t : Table α β) (a : α) (b : β) (x : α) :
    (t.set a b).get? x = if x = a then some b else t.get? x := by
  unfold set get?
  split
  · rename_i h
    split
    · rename_i hx
      subst hx
      exact lookup_replaced_self h b
    · exact lookup_replaced_of_ne _ b ‹_›
  · rename_i h
    simp only [lookup_append, lookup_pair, List.lookup_nil]
    by_cases hx : x = a
    · subst hx
      simp [lookup_eq_none h]
    · simp [hx]

theorem get?_erase (t : Table α β) (a x : α) :
    (t.erase a).get? x = if x = a then none else t.get? x := by
  simp only [erase, get?]
  split
  · rename_i hx
    subst hx
    exact lookup_eq_none (by simp)
  · exact lookup_filter_ne _ ‹_›

@[simp] theorem get?_empty (x : α) : (empty : Table α β).get? x = none := rfl

theorem lookup_eq_some_iff {pairs : List (α × β)} (h : (pairs.map Prod.fst).Nodup) {a : α} {b : β} :
    pairs.lookup a = some b ↔ (a, b) ∈ pairs := by
  induction pairs with
  | nil => simp
  | cons p pairs ih =>
    obtain ⟨k, v⟩ := p
    obtain ⟨hk, hn⟩ := List.nodup_cons.mp h
    rw [lookup_pair, List.mem_cons, Prod.mk.injEq]
    split
    · rename_i ha
      subst ha
      have hb : (a, b) ∉ pairs := fun hp => hk (List.mem_map.mpr ⟨(a, b), hp, rfl⟩)
      simp [hb, eq_comm]
    · rename_i ha
      rw [ih hn]
      simp [ha]

theorem get?_eq_some_iff (t : Table α β) {a : α} {b : β} : t.get? a = some b ↔ (a, b) ∈ t.pairs :=
  lookup_eq_some_iff t.nodup_keys

end Table
end BlockExchange

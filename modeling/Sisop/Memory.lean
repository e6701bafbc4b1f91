import Mathlib.Algebra.Order.BigOperators.Group.Finset

/-!
# Allocated blocks with indeterminate cells

A block is the list of the cells of one allocation. A cell that was never written is
indeterminate. Reading an indeterminate cell, and touching any cell outside the block, has no
result. `Block.filledTo xs k` is the shape that sequential writes produce: the cells of `xs`
followed by `k` cells nobody wrote.
-/

namespace Sisop

theorem bind_of_eq_some {α β : Type} {x : Option α} {a : α} (h : x = some a) (f : α → Option β) :
    (x >>= f) = f a := by
  subst h
  rfl

theorem bind_of_eq_none {α β : Type} {x : Option α} (h : x = none) (f : α → Option β) :
    (x >>= f) = none := by
  subst h
  rfl

abbrev Block (α : Type*) := List (Option α)

namespace Block

variable {α : Type*}

def malloc (n : ℕ) : Block α := List.replicate n none

/-- A new block in which `stale` is what stood there before. -/
def holding (stale : ℕ → α) (n : ℕ) : Block α := (List.range n).map fun i => some (stale i)

def realloc (b : Block α) (n : ℕ) : Block α := b.take n ++ List.replicate (n - b.length) none

/-- The contents of a run of cells, when every one of them was written. -/
def contents : Block α → Option (List α)
  | [] => some []
  | none :: _ => none
  | some x :: b => (contents b).map (x :: ·)

def get (b : Block α) (i : ℕ) : Option α := b[i]?.join

def load (b : Block α) (offset n : ℕ) : Option (List α) :=
  if offset + n ≤ b.length then contents ((b.drop offset).take n) else none

def store (b : Block α) (offset : ℕ) (xs : List α) : Option (Block α) :=
  if offset + xs.length ≤ b.length then
    some (b.take offset ++ xs.map some ++ b.drop (offset + xs.length))
  else none

def filledTo (xs : List α) (k : ℕ) : Block α := xs.map some ++ List.replicate k none

theorem malloc_eq_filledTo (n : ℕ) : malloc n = filledTo ([] : List α) n := rfl

@[simp] theorem length_filledTo (xs : List α) (k : ℕ) :
    (filledTo xs k).length = xs.length + k := by simp [filledTo]

@[simp] theorem contents_map_some (xs : List α) : contents (xs.map some) = some xs := by
  induction xs with
  | nil => rfl
  | cons x xs ih => simp [contents, ih]

theorem contents_append_none (xs : List α) (b : Block α) :
    contents (xs.map some ++ none :: b) = none := by
  induction xs with
  | nil => rfl
  | cons x xs ih => simp [contents, ih]

@[simp] theorem contents_filledTo_zero (xs : List α) : contents (filledTo xs 0) = some xs := by
  simp [filledTo]

theorem contents_filledTo_succ (xs : List α) (k : ℕ) : contents (filledTo xs (k + 1)) = none :=
  contents_append_none xs _

theorem take_drop_filledTo (xs : List α) (k offset n : ℕ) (ho : offset ≤ xs.length) :
    ((filledTo xs k).drop offset).take n =
      filledTo ((xs.drop offset).take n) (min (n - (xs.length - offset)) k) := by
  have hd : (filledTo xs k).drop offset = filledTo (xs.drop offset) k := by
    simp only [filledTo, List.drop_append, List.length_map, List.map_drop]
    rw [Nat.sub_eq_zero_of_le ho, List.drop_zero]
  rw [hd]
  simp only [filledTo, List.take_append, List.length_map, List.length_drop, List.take_replicate,
    List.map_take]

theorem length_contents {b : Block α} {xs : List α} (h : contents b = some xs) :
    xs.length = b.length := by
  induction b generalizing xs with
  | nil =>
    obtain rfl := Option.some.inj h
    rfl
  | cons x b ih =>
    cases x with
    | none => cases h
    | some x =>
      obtain ⟨ys, hys, rfl⟩ := Option.map_eq_some_iff.mp h
      simp [ih hys]

theorem length_load {b : Block α} {offset n : ℕ} {xs : List α} (h : b.load offset n = some xs) :
    xs.length ≤ n := by
  simp only [load] at h
  split_ifs at h
  rw [length_contents h, List.length_take]
  omega

/-- A read that stays inside the written part gives exactly those cells. -/
theorem load_filledTo (xs : List α) (k offset n : ℕ) (h : offset + n ≤ xs.length) :
    (filledTo xs k).load offset n = some ((xs.drop offset).take n) := by
  have hl : offset + n ≤ (filledTo xs k).length := by rw [length_filledTo]; omega
  rw [load, if_pos hl, take_drop_filledTo xs k offset n (by omega)]
  have hz : min (n - (xs.length - offset)) k = 0 := by omega
  rw [hz, contents_filledTo_zero]

/-- A read that passes the end of the written part has no result, whether it leaves the block or
meets an indeterminate cell. -/
theorem load_filledTo_eq_none (xs : List α) (k offset n : ℕ) (ho : offset ≤ xs.length)
    (h : xs.length < offset + n) : (filledTo xs k).load offset n = none := by
  rw [load]
  by_cases hl : offset + n ≤ (filledTo xs k).length
  · rw [if_pos hl, take_drop_filledTo xs k offset n ho]
    rw [length_filledTo] at hl
    obtain ⟨j, hj⟩ : ∃ j, min (n - (xs.length - offset)) k = j + 1 :=
      ⟨min (n - (xs.length - offset)) k - 1, by omega⟩
    rw [hj, contents_filledTo_succ]
  · rw [if_neg hl]

theorem get_filledTo (xs : List α) (k i : ℕ) : (filledTo xs k).get i = xs[i]? := by
  simp only [get, filledTo]
  by_cases h : i < xs.length
  · rw [List.getElem?_append_left (by simpa using h)]
    simp [h]
  · rw [List.getElem?_append_right (by simpa using h), List.getElem?_eq_none (Nat.not_lt.mp h)]
    by_cases hk : i - xs.length < k
    · simp [hk]
    · rw [List.getElem?_eq_none (by simpa using hk)]
      rfl

/-- Writing right after the written part extends it. -/
theorem store_filledTo (xs ys : List α) (k k' offset : ℕ) (ho : offset = xs.length)
    (hk : k = k' + ys.length) :
    (filledTo xs k).store offset ys = some (filledTo (xs ++ ys) k') := by
  subst ho hk
  have hl : xs.length + ys.length ≤ (filledTo xs (k' + ys.length)).length := by
    rw [length_filledTo]
    omega
  rw [store, if_pos hl]
  simp [filledTo, List.drop_append]

theorem store_malloc (xs : List α) (n : ℕ) (h : xs.length ≤ n) :
    (malloc n).store 0 xs = some (filledTo xs (n - xs.length)) :=
  store_filledTo [] xs n (n - xs.length) 0 rfl (by omega)

theorem length_store {b b' : Block α} {offset : ℕ} {xs : List α}
    (h : b.store offset xs = some b') : b'.length = b.length := by
  simp only [store] at h
  split_ifs at h with hle
  obtain rfl := Option.some.inj h
  simp only [List.length_append, List.length_take, List.length_map, List.length_drop]
  omega

theorem store_eq_none {b : Block α} {offset : ℕ} {xs : List α}
    (h : b.length < offset + xs.length) : b.store offset xs = none :=
  if_neg (by omega)

/-- A write behind the first cell does not reach it. -/
theorem head_store {b b' : Block α} {offset : ℕ} {xs : List α}
    (h : b.store offset xs = some b') (ho : 0 < offset) : b'[0]? = b[0]? := by
  rw [store] at h
  split_ifs at h with hle
  cases h
  rcases b with _ | ⟨cell, b⟩
  · simp only [List.length_nil, Nat.le_zero] at hle
    omega
  · obtain ⟨offset, rfl⟩ := Nat.exists_eq_add_of_lt ho
    simp

theorem head_of_load {b : Block α} {n : ℕ} {xs : List α} (h : b.load 0 (n + 1) = some xs) :
    b[0]? ≠ some none := by
  intro hnone
  rw [load] at h
  split_ifs at h
  rcases b with _ | ⟨cell, b⟩
  · cases hnone
  · cases Option.some.inj hnone
    cases h

@[simp] theorem length_realloc (b : Block α) (n : ℕ) : (b.realloc n).length = n := by
  simp only [realloc, List.length_append, List.length_take, List.length_replicate]
  omega

theorem realloc_filledTo (xs : List α) {k n : ℕ} (h : xs.length + k ≤ n) :
    (filledTo xs k).realloc n = filledTo xs (n - xs.length) := by
  rw [realloc, List.take_of_length_le (by rw [length_filledTo]; exact h), length_filledTo, filledTo,
    filledTo, List.append_assoc, List.replicate_append_replicate]
  congr 2
  omega

@[simp] theorem length_malloc (n : ℕ) : (malloc n : Block α).length = n := List.length_replicate

@[simp] theorem length_holding (stale : ℕ → α) (n : ℕ) : (holding stale n).length = n := by
  simp [holding]

/-- A write to all of a block leaves nothing of what stood there. -/
theorem store_whole {b : Block α} {xs : List α} (h : b.length = xs.length) :
    b.store 0 xs = some (filledTo xs 0) := by
  simp [store, filledTo, h]

/-- Behind what is written the stale values stay. -/
theorem store_holding (stale : ℕ → α) {n : ℕ} {xs : List α} (h : xs.length ≤ n) :
    (holding stale n).store 0 xs =
      some (filledTo (xs ++ ((List.range n).map stale).drop xs.length) 0) := by
  rw [store, if_pos (by simpa using h)]
  simp [holding, filledTo, List.map_drop, Function.comp_def]

end Block
end Sisop

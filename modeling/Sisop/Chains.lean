import Sisop.Programs
import Mathlib.Data.List.Basic
import Mathlib.Logic.Function.Basic

/-!
# Chains of cells in a heap

A heap has cells at addresses; a cell has data and the address of the next one, or a null pointer.
A segment leads from one pointer to another through a list of cells. A heap is tiled by a family of
chains when every one of them ends at the null pointer, no two share a cell and every cell belongs
to one: nothing is lost. What an operation does to one chain of such a family, the others do not
notice.
-/

namespace Sisop

variable {κ δ ρ ι : Type}

abbrev Pointer := Option ℕ

structure Heap (κ : Type) where
  cell : ℕ → Option κ
  top : ℕ
  unused : ∀ a, top ≤ a → cell a = none

namespace Heap

def empty : Heap κ := ⟨fun _ => none, 0, fun _ _ => rfl⟩

def write (heap : Heap κ) (a : ℕ) (c : κ) : Heap κ where
  cell := Function.update heap.cell a (some c)
  top := max heap.top (a + 1)
  unused b hb := by
    rw [Function.update_of_ne (by omega)]
    exact heap.unused b (by omega)

def free (heap : Heap κ) (a : ℕ) : Heap κ where
  cell := Function.update heap.cell a none
  top := heap.top
  unused b hb := by
    by_cases hba : b = a
    · rw [hba, Function.update_self]
    · rw [Function.update_of_ne hba]
      exact heap.unused b hb

variable {heap : Heap κ} {a b : ℕ} {c : κ}

@[simp] theorem cell_empty (a : ℕ) : (empty : Heap κ).cell a = none := rfl

@[simp] theorem cell_write_self : (heap.write a c).cell a = some c := Function.update_self ..

theorem cell_write_of_ne (h : b ≠ a) : (heap.write a c).cell b = heap.cell b :=
  Function.update_of_ne h ..

@[simp] theorem cell_free_self : (heap.free a).cell a = none := Function.update_self ..

theorem cell_free_of_ne (h : b ≠ a) : (heap.free a).cell b = heap.cell b :=
  Function.update_of_ne h ..

end Heap

/-- Which unused address is handed out next; one that was given back may be. -/
structure Allocator (κ : Type) where
  address : Heap κ → ℕ
  isUnused : ∀ heap : Heap κ, heap.cell (address heap) = none

def Allocator.top : Allocator κ := ⟨Heap.top, fun heap => heap.unused _ (Nat.le_refl _)⟩

structure Cell (δ : Type) where
  data : δ
  next : Pointer
  deriving DecidableEq, Repr

/-- The cells from a pointer to another, with their addresses. -/
def Segment (heap : Heap (Cell δ)) : Pointer → List (ℕ × δ) → Pointer → Prop
  | start, [], stop => start = stop
  | start, (a, d) :: cells, stop =>
    start = some a ∧ ∃ next, heap.cell a = some ⟨d, next⟩ ∧ Segment heap next cells stop

def addresses (cells : List (ℕ × δ)) : List ℕ := cells.map Prod.fst

def contents (cells : List (ℕ × δ)) : List δ := cells.map Prod.snd

@[simp] theorem addresses_nil : addresses ([] : List (ℕ × δ)) = [] := rfl

@[simp] theorem addresses_cons (a : ℕ) (d : δ) (cells : List (ℕ × δ)) :
    addresses ((a, d) :: cells) = a :: addresses cells := rfl

@[simp] theorem addresses_append (cells cells' : List (ℕ × δ)) :
    addresses (cells ++ cells') = addresses cells ++ addresses cells' := List.map_append

@[simp] theorem contents_nil : contents ([] : List (ℕ × δ)) = [] := rfl

@[simp] theorem contents_cons (a : ℕ) (d : δ) (cells : List (ℕ × δ)) :
    contents ((a, d) :: cells) = d :: contents cells := rfl

@[simp] theorem contents_append (cells cells' : List (ℕ × δ)) :
    contents (cells ++ cells') = contents cells ++ contents cells' := List.map_append

@[simp] theorem length_contents (cells : List (ℕ × δ)) : (contents cells).length = cells.length :=
  List.length_map _

section Segment

variable {heap heap' : Heap (Cell δ)} {start middle stop next : Pointer} {a : ℕ} {d : δ}
  {cells cells' : List (ℕ × δ)}

theorem segment_append : Segment heap start (cells ++ cells') stop ↔
    ∃ middle, Segment heap start cells middle ∧ Segment heap middle cells' stop := by
  induction cells generalizing start with
  | nil => simp [Segment]
  | cons cell cells ih =>
    obtain ⟨a, d⟩ := cell
    simp only [List.cons_append, Segment, ih]
    constructor
    · rintro ⟨rfl, next, hcell, middle, hfront, hback⟩
      exact ⟨middle, ⟨rfl, next, hcell, hfront⟩, hback⟩
    · rintro ⟨middle, ⟨rfl, next, hcell, hfront⟩, hback⟩
      exact ⟨rfl, next, hcell, middle, hfront, hback⟩

/-- A segment only depends on its own cells. -/
theorem Segment.congr (h : Segment heap start cells stop)
    (hsame : ∀ a ∈ addresses cells, heap'.cell a = heap.cell a) :
    Segment heap' start cells stop := by
  induction cells generalizing start with
  | nil => exact h
  | cons cell cells ih =>
    obtain ⟨rfl, next, hcell, hrest⟩ := h
    refine ⟨rfl, next, (hsame _ List.mem_cons_self).trans hcell, ih hrest fun a ha => ?_⟩
    exact hsame a (List.mem_cons_of_mem _ ha)

theorem Segment.live (h : Segment heap start cells stop) (ha : a ∈ addresses cells) :
    heap.cell a ≠ none := by
  induction cells generalizing start with
  | nil => cases ha
  | cons cell cells ih =>
    obtain ⟨rfl, next, hcell, hrest⟩ := h
    rcases List.mem_cons.mp ha with rfl | ha
    · rw [hcell]
      exact Option.some_ne_none _
    · exact ih hrest ha

/-- The chain behind a pointer is determined by the heap. -/
theorem Segment.unique (h : Segment heap start cells none)
    (h' : Segment heap start cells' none) : cells = cells' := by
  induction cells generalizing start cells' with
  | nil =>
    obtain rfl : start = none := h
    cases cells' with
    | nil => rfl
    | cons cell' cells' => cases h'.1
  | cons cell cells ih =>
    obtain ⟨rfl, next, hcell, hrest⟩ := h
    cases cells' with
    | nil => cases (h' : some cell.1 = none)
    | cons cell' cells' =>
      obtain ⟨a, d⟩ := cell
      obtain ⟨a', d'⟩ := cell'
      obtain ⟨ha, next', hcell', hrest'⟩ := h'
      obtain rfl := Option.some.inj ha
      rw [hcell] at hcell'
      obtain ⟨rfl, rfl⟩ := Cell.mk.inj (Option.some.inj hcell')
      rw [ih hrest hrest']

/-- A chain that ends at the null pointer does not come back to any of its cells. -/
theorem Segment.nodup (h : Segment heap start cells none) : (addresses cells).Nodup := by
  induction cells generalizing start with
  | nil => exact List.nodup_nil
  | cons cell cells ih =>
    obtain ⟨a, d⟩ := cell
    obtain ⟨rfl, next, hcell, hrest⟩ := h
    refine List.nodup_cons.mpr ⟨fun ha => ?_, ih hrest⟩
    -- from `a` the rest of the chain would be the whole chain
    obtain ⟨⟨a', d'⟩, hmem, rfl⟩ := List.mem_map.mp ha
    obtain ⟨front, back, rfl⟩ := List.append_of_mem hmem
    obtain ⟨middle, -, hback⟩ := segment_append.mp hrest
    obtain rfl : middle = some a' := hback.1
    have hwhole : Segment heap (some a') ((a', d) :: (front ++ (a', d') :: back)) none :=
      ⟨rfl, next, hcell, hrest⟩
    have hlength := congrArg List.length (hwhole.unique hback)
    simp only [List.length_cons, List.length_append] at hlength
    omega

/-- The last cell is linked to something else. -/
theorem Segment.relink (h : Segment heap start (cells ++ [(a, d)]) stop) (heap' : Heap (Cell δ))
    (next : Pointer) (hsame : ∀ b ∈ addresses cells, heap'.cell b = heap.cell b)
    (ha : heap'.cell a = some ⟨d, next⟩) : Segment heap' start (cells ++ [(a, d)]) next := by
  obtain ⟨middle, hfront, rfl, -⟩ := segment_append.mp h
  exact segment_append.mpr ⟨some a, hfront.congr hsame, rfl, next, ha, rfl⟩

def first (cells : List (ℕ × δ)) : Pointer := (addresses cells).head?

@[simp] theorem first_nil : first ([] : List (ℕ × δ)) = none := rfl

@[simp] theorem first_cons (a : ℕ) (d : δ) (cells : List (ℕ × δ)) :
    first ((a, d) :: cells) = some a := rfl

@[simp] theorem first_eq_none : first cells = none ↔ cells = [] := by
  cases cells <;> simp [first, addresses]

theorem Segment.start_eq (h : Segment heap start cells none) : start = first cells := by
  cases cells with
  | nil => exact h
  | cons cell cells => exact h.1

/-- What a cell of a chain holds. -/
theorem Segment.cell_eq (h : Segment heap start (cells ++ (a, d) :: cells') none) :
    heap.cell a = some ⟨d, first cells'⟩ := by
  obtain ⟨middle, -, rfl, next, hcell, hrest⟩ := segment_append.mp h
  rw [hcell, hrest.start_eq]

end Segment

/-- The heap around a chain is as before when `cells` have become `cells'`. -/
structure Reshaped (heap heap' : Heap (Cell δ)) (cells cells' : List (ℕ × δ)) : Prop where
  frame : ∀ a, a ∉ addresses cells → a ∉ addresses cells' → heap'.cell a = heap.cell a
  fresh : ∀ a ∈ addresses cells', a ∉ addresses cells → heap.cell a = none
  freed : ∀ a ∈ addresses cells, a ∉ addresses cells' → heap'.cell a = none

namespace Reshaped

variable {heap heap' heap'' : Heap (Cell δ)} {start : Pointer} {a b : ℕ} {d e : δ}
  {cells cells' cells'' : List (ℕ × δ)}

theorem refl (heap : Heap (Cell δ)) (cells : List (ℕ × δ)) : Reshaped heap heap cells cells :=
  ⟨fun _ _ _ => rfl, fun _ h h' => absurd h h', fun _ h h' => absurd h h'⟩

theorem trans (h : Reshaped heap heap' cells cells') (h' : Reshaped heap' heap'' cells' cells'') :
    Reshaped heap heap'' cells cells'' := by
  refine ⟨fun a ha ha'' => ?_, fun a ha'' ha => ?_, fun a ha ha'' => ?_⟩
  · by_cases ha' : a ∈ addresses cells'
    · rw [h'.freed a ha' ha'', h.fresh a ha' ha]
    · rw [h'.frame a ha' ha'', h.frame a ha ha']
  · by_cases ha' : a ∈ addresses cells'
    · exact h.fresh a ha' ha
    · rw [← h.frame a ha ha']
      exact h'.fresh a ha'' ha'
  · by_cases ha' : a ∈ addresses cells'
    · exact h'.freed a ha' ha''
    · rw [h'.frame a ha' ha'']
      exact h.freed a ha ha'

end Reshaped

section Surgery

variable {heap : Heap (Cell δ)} {start : Pointer} {a b : ℕ} {d d' e : δ}
  {front back : List (ℕ × δ)}

/-- A new cell in front of a chain. -/
theorem Segment.push (h : Segment heap start back none) (heap' : Heap (Cell δ))
    (ha : heap.cell a = none)
    (ha' : heap'.cell a = some ⟨d, start⟩) (hsame : ∀ c, c ≠ a → heap'.cell c = heap.cell c) :
    Segment heap' (some a) ((a, d) :: back) none ∧ Reshaped heap heap' back ((a, d) :: back) := by
  have hne : ∀ c ∈ addresses back, c ≠ a := by
    rintro c hc rfl
    exact h.live hc ha
  refine ⟨⟨rfl, start, ha', h.congr fun c hc => hsame c (hne c hc)⟩, fun c _ hc => ?_,
    fun c hc hnot => ?_, fun c hc hnot => ?_⟩
  · exact hsame c fun heq => hc (heq ▸ List.mem_cons_self)
  · rcases List.mem_cons.mp hc with rfl | hc
    · exact ha
    · exact absurd hc hnot
  · exact absurd (List.mem_cons_of_mem _ hc) hnot

/-- A new cell behind the cell at `b`. -/
theorem Segment.insert (h : Segment heap start (front ++ (b, e) :: back) none)
    (heap' : Heap (Cell δ)) (ha : heap.cell a = none) (hb' : heap'.cell b = some ⟨e, some a⟩)
    (ha' : heap'.cell a = some ⟨d, first back⟩)
    (hsame : ∀ c, c ≠ a → c ≠ b → heap'.cell c = heap.cell c) :
    Segment heap' start (front ++ (b, e) :: (a, d) :: back) none ∧
      Reshaped heap heap' (front ++ (b, e) :: back) (front ++ (b, e) :: (a, d) :: back) := by
  have hne : ∀ c ∈ addresses (front ++ (b, e) :: back), c ≠ a := by
    rintro c hc rfl
    exact h.live hc ha
  have hnodup := h.nodup
  rw [addresses_append, addresses_cons, List.nodup_append, List.nodup_cons] at hnodup
  obtain ⟨-, ⟨hback, -⟩, hfront⟩ := hnodup
  rw [addresses_append, addresses_cons] at hne
  obtain ⟨middle, hsegment, hrest⟩ :=
    segment_append.mp (show Segment heap start ((front ++ [(b, e)]) ++ back) none by simpa using h)
  have hlinked := hsegment.relink heap' (some a) (fun c hc => ?_) hb'
  · refine ⟨?_, fun c hc hc' => ?_, fun c hc hnot => ?_, fun c hc hnot => ?_⟩
    · have hbehind : Segment heap' (some a) ((a, d) :: back) none := by
        refine ⟨rfl, first back, ha', ?_⟩
        rw [← hrest.start_eq]
        refine hrest.congr fun c hc => hsame c (hne c ?_) ?_
        · simp [hc]
        · rintro rfl
          exact hback hc
      simpa using segment_append.mpr ⟨some a, hlinked, hbehind⟩
    · refine hsame c ?_ ?_ <;> rintro rfl <;> simp at hc hc'
    · simp only [addresses_append, addresses_cons, List.mem_append, List.mem_cons] at hc hnot
      push Not at hnot
      rcases hc with hc | rfl | rfl | hc
      · exact absurd hc hnot.1
      · exact absurd rfl hnot.2.1
      · exact ha
      · exact absurd hc hnot.2.2
    · refine absurd ?_ hnot
      simp only [addresses_append, addresses_cons, List.mem_append, List.mem_cons] at hc ⊢
      exact hc.imp_right (.imp_right .inr)
  · refine hsame c (hne c (List.mem_append_left _ hc)) ?_
    rintro rfl
    exact hfront c hc c List.mem_cons_self rfl

/-- The first cell is given back. -/
theorem Segment.pop (h : Segment heap start ((a, d) :: back) none) (heap' : Heap (Cell δ))
    (ha' : heap'.cell a = none)
    (hsame : ∀ c, c ≠ a → heap'.cell c = heap.cell c) :
    Segment heap' (first back) back none ∧ Reshaped heap heap' ((a, d) :: back) back := by
  have hnodup := List.nodup_cons.mp h.nodup
  obtain ⟨-, next, -, hrest⟩ := h
  have hstart := hrest.start_eq
  subst hstart
  refine ⟨hrest.congr fun c hc => hsame c ?_, fun c hc _ => hsame c ?_, fun c hc hnot => ?_,
    fun c hc hnot => ?_⟩
  · rintro rfl
    exact hnodup.1 hc
  · rintro rfl
    exact hc List.mem_cons_self
  · exact absurd (List.mem_cons_of_mem _ hc) hnot
  · rcases List.mem_cons.mp hc with rfl | hc
    · exact ha'
    · exact absurd hc hnot

/-- The cell behind the one at `b` is unlinked and given back. -/
theorem Segment.remove (h : Segment heap start (front ++ (b, e) :: (a, d) :: back) none)
    (heap' : Heap (Cell δ)) (ha' : heap'.cell a = none) (hb' : heap'.cell b = some ⟨e, first back⟩)
    (hsame : ∀ c, c ≠ a → c ≠ b → heap'.cell c = heap.cell c) :
    Segment heap' start (front ++ (b, e) :: back) none ∧
      Reshaped heap heap' (front ++ (b, e) :: (a, d) :: back) (front ++ (b, e) :: back) := by
  have hnodup := h.nodup
  simp only [addresses_append, addresses_cons, List.nodup_append, List.nodup_cons, List.mem_cons]
    at hnodup
  obtain ⟨-, ⟨hb, ha, -⟩, hfront⟩ := hnodup
  push Not at hb
  obtain ⟨middle, hsegment, hrest⟩ := segment_append.mp
    (show Segment heap start ((front ++ [(b, e)]) ++ (a, d) :: back) none by simpa using h)
  obtain ⟨-, next, -, hrest⟩ := hrest
  have hlinked := hsegment.relink heap' (first back) (fun c hc => ?_) hb'
  · refine ⟨?_, fun c hc hc' => ?_, fun c hc hnot => ?_, fun c hc hnot => ?_⟩
    · have hbehind : Segment heap' (first back) back none := by
        have hstart := hrest.start_eq
        subst hstart
        refine hrest.congr fun c hc => hsame c ?_ ?_
        · rintro rfl
          exact ha hc
        · rintro rfl
          exact hb.2 hc
      simpa using segment_append.mpr ⟨first back, hlinked, hbehind⟩
    · refine hsame c ?_ ?_ <;> rintro rfl <;> simp at hc
    · refine absurd ?_ hnot
      simp only [addresses_append, addresses_cons, List.mem_append, List.mem_cons] at hc ⊢
      exact hc.imp_right (.imp_right .inr)
    · simp only [addresses_append, addresses_cons, List.mem_append, List.mem_cons] at hc hnot
      push Not at hnot
      rcases hc with hc | rfl | rfl | hc
      · exact absurd hc hnot.1
      · exact absurd rfl hnot.2.1
      · exact ha'
      · exact absurd hc hnot.2.2
  · refine hsame c ?_ ?_
    · rintro rfl
      exact hfront c hc c (.inr (.inl rfl)) rfl
    · rintro rfl
      exact hfront c hc c (.inl rfl) rfl

/-- A cell gets other data. -/
theorem Segment.replace (h : Segment heap start (front ++ (a, d) :: back) none)
    (heap' : Heap (Cell δ)) (ha' : heap'.cell a = some ⟨d', first back⟩)
    (hsame : ∀ c, c ≠ a → heap'.cell c = heap.cell c) :
    Segment heap' start (front ++ (a, d') :: back) none ∧
      Reshaped heap heap' (front ++ (a, d) :: back) (front ++ (a, d') :: back) := by
  have haddresses : addresses (front ++ (a, d') :: back) = addresses (front ++ (a, d) :: back) := by
    simp
  have hnodup := h.nodup
  rw [addresses_append, addresses_cons, List.nodup_append, List.nodup_cons] at hnodup
  obtain ⟨-, ⟨hback, -⟩, hfront⟩ := hnodup
  obtain ⟨middle, hsegment, rfl, next, -, hrest⟩ := segment_append.mp h
  have hstart := hrest.start_eq
  subst hstart
  refine ⟨segment_append.mpr ⟨some a, hsegment.congr fun c hc => hsame c ?_, rfl, first back, ha',
    hrest.congr fun c hc => hsame c ?_⟩, fun c hc _ => hsame c ?_, fun c hc hnot => ?_,
    fun c hc hnot => ?_⟩
  · rintro rfl
    exact hfront c hc c List.mem_cons_self rfl
  · rintro rfl
    exact hback hc
  · rintro rfl
    simp at hc
  · exact absurd (haddresses ▸ hc) hnot
  · exact absurd (haddresses ▸ hc) hnot

end Surgery

/-- Every cell of the heap is in one of the chains, once. -/
structure Tiled (heap : Heap (Cell δ)) (head : ι → Pointer) (place : ι → List (ℕ × δ)) : Prop where
  chain : ∀ i, Segment heap (head i) (place i) none
  apart : ∀ i j a, a ∈ addresses (place i) → a ∈ addresses (place j) → i = j
  live : ∀ a, heap.cell a ≠ none → ∃ i, a ∈ addresses (place i)

namespace Tiled

theorem empty : Tiled (Heap.empty : Heap (Cell δ)) (fun _ : ι => none) fun _ => [] :=
  ⟨fun _ => rfl, fun _ _ _ h => absurd h List.not_mem_nil, fun _ h => absurd rfl h⟩

variable {heap heap' : Heap (Cell δ)} {head : ι → Pointer} {place : ι → List (ℕ × δ)} {i : ι}
  {start : Pointer} {cells : List (ℕ × δ)}

/-- More names for chains, all of them empty. -/
theorem extend {κ : Type} {head' : κ → Pointer} {place' : κ → List (ℕ × δ)}
    (h : Tiled heap head place) (f : ι → κ) (hhead : ∀ i, head' (f i) = head i)
    (hplace : ∀ i, place' (f i) = place i)
    (hempty : ∀ k, (∀ i, f i ≠ k) → head' k = none ∧ place' k = []) : Tiled heap head' place' := by
  refine ⟨fun k => ?_, fun k l a hk hl => ?_, fun a ha => ?_⟩
  · by_cases hk : ∃ i, f i = k
    · obtain ⟨i, rfl⟩ := hk
      rw [hhead, hplace]
      exact h.chain i
    · rw [(hempty k (not_exists.mp hk)).1, (hempty k (not_exists.mp hk)).2]
      rfl
  · have hnamed : ∀ k, a ∈ addresses (place' k) → ∃ i, f i = k := by
      intro k hk
      by_contra hnot
      rw [(hempty k (not_exists.mp hnot)).2] at hk
      cases hk
    obtain ⟨i, rfl⟩ := hnamed k hk
    obtain ⟨j, rfl⟩ := hnamed l hl
    rw [hplace] at hk hl
    rw [h.apart i j a hk hl]
  · obtain ⟨i, hi⟩ := h.live a ha
    exact ⟨f i, by rwa [hplace]⟩

/-- Names of empty chains are given up. -/
theorem restrict {κ : Type} {f : κ → ι} (h : Tiled heap head place) (hf : Function.Injective f)
    (hempty : ∀ i, (∀ k, f k ≠ i) → place i = []) :
    Tiled heap (fun k => head (f k)) fun k => place (f k) := by
  refine ⟨fun k => h.chain (f k), fun k l a hk hl => hf (h.apart _ _ a hk hl), fun a ha => ?_⟩
  obtain ⟨i, hi⟩ := h.live a ha
  by_cases hk : ∃ k, f k = i
  · obtain ⟨k, rfl⟩ := hk
    exact ⟨k, hi⟩
  · rw [hempty i (not_exists.mp hk)] at hi
    cases hi

variable [DecidableEq ι]

/-- One chain is reshaped, with cells of its own and with new ones. -/
theorem update (h : Tiled heap head place) (hcells : Segment heap' start cells none)
    (hreshaped : Reshaped heap heap' (place i) cells) :
    Tiled heap' (Function.update head i start) (Function.update place i cells) := by
  -- the other chains have no cell in common with the new one
  have hother : ∀ j a, j ≠ i → a ∈ addresses (place j) → a ∉ addresses (place i) ∧
      a ∉ addresses cells := by
    intro j a hj ha
    have hold : a ∉ addresses (place i) := fun hmem => hj (h.apart j i a ha hmem)
    exact ⟨hold, fun hmem => (h.chain j).live ha (hreshaped.fresh a hmem hold)⟩
  refine ⟨fun j => ?_, fun j k a hj hk => ?_, fun a ha => ?_⟩
  · by_cases hj : j = i
    · subst hj
      rw [Function.update_self, Function.update_self]
      exact hcells
    · rw [Function.update_of_ne hj, Function.update_of_ne hj]
      refine (h.chain j).congr fun a ha => ?_
      exact hreshaped.frame a (hother j a hj ha).1 (hother j a hj ha).2
  · by_cases hji : j = i
    · by_cases hki : k = i
      · rw [hji, hki]
      · rw [hji, Function.update_self] at hj
        rw [Function.update_of_ne hki] at hk
        exact absurd hj (hother k a hki hk).2
    · rw [Function.update_of_ne hji] at hj
      by_cases hki : k = i
      · rw [hki, Function.update_self] at hk
        exact absurd hk (hother j a hji hj).2
      · rw [Function.update_of_ne hki] at hk
        exact h.apart j k a hj hk
  · by_cases hcell : a ∈ addresses cells
    · exact ⟨i, by rwa [Function.update_self]⟩
    · have hold : a ∉ addresses (place i) := fun hmem => ha (hreshaped.freed a hmem hcell)
      rw [hreshaped.frame a hold hcell] at ha
      obtain ⟨j, hj⟩ := h.live a ha
      refine ⟨j, ?_⟩
      rw [Function.update_of_ne (by rintro rfl; exact hold hj)]
      exact hj

/-- Two chains share their cells out anew. -/
theorem exchange (h : Tiled heap head place) {j : ι} {start' : Pointer} {cells' : List (ℕ × δ)}
    (hij : i ≠ j) (hcells : Segment heap' start cells none)
    (hcells' : Segment heap' start' cells' none)
    (haddresses : ∀ a, (a ∈ addresses cells ∨ a ∈ addresses cells') ↔
      (a ∈ addresses (place i) ∨ a ∈ addresses (place j)))
    (hdisjoint : ∀ a ∈ addresses cells, a ∉ addresses cells')
    (hframe : ∀ a, a ∉ addresses (place i) → a ∉ addresses (place j) →
      heap'.cell a = heap.cell a) :
    Tiled heap' (Function.update (Function.update head i start) j start')
      (Function.update (Function.update place i cells) j cells') := by
  have hother : ∀ k a, k ≠ i → k ≠ j → a ∈ addresses (place k) →
      ¬ (a ∈ addresses cells ∨ a ∈ addresses cells') := by
    intro k a hki hkj ha hmem
    rcases (haddresses a).mp hmem with hmem | hmem
    · exact hki (h.apart k i a ha hmem)
    · exact hkj (h.apart k j a ha hmem)
  refine ⟨fun k => ?_, fun k l a hk hl => ?_, fun a ha => ?_⟩
  · by_cases hkj : k = j
    · subst hkj
      rw [Function.update_self, Function.update_self]
      exact hcells'
    · rw [Function.update_of_ne hkj, Function.update_of_ne hkj]
      by_cases hki : k = i
      · subst hki
        rw [Function.update_self, Function.update_self]
        exact hcells
      · rw [Function.update_of_ne hki, Function.update_of_ne hki]
        refine (h.chain k).congr fun a ha => hframe a ?_ ?_
        · exact fun hmem => hki (h.apart k i a ha hmem)
        · exact fun hmem => hkj (h.apart k j a ha hmem)
  · -- which of the three an address belongs to tells where it is
    have hwhere : ∀ k, a ∈ addresses (Function.update (Function.update place i cells) j cells' k) →
        (k = j ∧ a ∈ addresses cells') ∨ (k = i ∧ a ∈ addresses cells) ∨
          (k ≠ i ∧ k ≠ j ∧ a ∈ addresses (place k)) := by
      intro k hk
      by_cases hkj : k = j
      · rw [hkj, Function.update_self] at hk
        exact .inl ⟨hkj, hk⟩
      · rw [Function.update_of_ne hkj] at hk
        by_cases hki : k = i
        · rw [hki, Function.update_self] at hk
          exact .inr (.inl ⟨hki, hk⟩)
        · rw [Function.update_of_ne hki] at hk
          exact .inr (.inr ⟨hki, hkj, hk⟩)
    obtain ⟨rfl, hk'⟩ | ⟨rfl, hk'⟩ | ⟨hki, hkj, hk'⟩ := hwhere k hk
    · obtain ⟨rfl, hl'⟩ | ⟨rfl, hl'⟩ | ⟨hli, hlj, hl'⟩ := hwhere l hl
      · rfl
      · exact absurd hk' (hdisjoint a hl')
      · exact absurd (.inr hk') (hother l a hli hlj hl')
    · obtain ⟨rfl, hl'⟩ | ⟨rfl, hl'⟩ | ⟨hli, hlj, hl'⟩ := hwhere l hl
      · exact absurd hl' (hdisjoint a hk')
      · rfl
      · exact absurd (.inl hk') (hother l a hli hlj hl')
    · obtain ⟨rfl, hl'⟩ | ⟨rfl, hl'⟩ | ⟨-, -, hl'⟩ := hwhere l hl
      · exact absurd (.inr hl') (hother k a hki hkj hk')
      · exact absurd (.inl hl') (hother k a hki hkj hk')
      · exact h.apart k l a hk' hl'
  · by_cases hmem : a ∈ addresses cells ∨ a ∈ addresses cells'
    · rcases hmem with hmem | hmem
      · refine ⟨i, ?_⟩
        rw [Function.update_of_ne hij, Function.update_self]
        exact hmem
      · exact ⟨j, by rwa [Function.update_self]⟩
    · have hold := mt (haddresses a).mpr hmem
      rw [not_or] at hold
      rw [hframe a hold.1 hold.2] at ha
      obtain ⟨k, hk⟩ := h.live a ha
      refine ⟨k, ?_⟩
      rw [Function.update_of_ne (by rintro rfl; exact hold.2 hk),
        Function.update_of_ne (by rintro rfl; exact hold.1 hk)]
      exact hk

end Tiled

structure Memory (δ ρ : Type) where
  cells : Heap (Cell δ)
  root : ρ

namespace Memory

def deref (p : Pointer) : Program (Memory δ ρ) (Cell δ) :=
  .step fun m => (p.bind m.cells.cell).map fun c => (c, m)

def modify (p : Pointer) (f : Cell δ → Cell δ) : Program (Memory δ ρ) Unit :=
  .step fun m => p.bind fun a => (m.cells.cell a).map fun c =>
    ((), { m with cells := m.cells.write a (f c) })

def allocate (malloc : Allocator (Cell δ)) (d : δ) : Program (Memory δ ρ) Pointer :=
  .step fun m => some (some (malloc.address m.cells),
    { m with cells := m.cells.write (malloc.address m.cells) ⟨d, none⟩ })

def release (p : Pointer) : Program (Memory δ ρ) Unit :=
  .step fun m => p.bind fun a => (m.cells.cell a).map fun _ =>
    ((), { m with cells := m.cells.free a })

variable {m : Memory δ ρ} {a : ℕ} {c : Cell δ}

theorem deref_of_cell (h : m.cells.cell a = some c) : deref (some a) m = .ok (c, m) :=
  step_of_some (by rw [Option.bind_some, h]; rfl)

theorem deref_null : deref none m = .error .fault := step_of_none rfl

theorem modify_of_cell (h : m.cells.cell a = some c) (f : Cell δ → Cell δ) :
    modify (some a) f m = .ok ((), { m with cells := m.cells.write a (f c) }) :=
  step_of_some (by rw [Option.bind_some, h]; rfl)

theorem allocate_apply (malloc : Allocator (Cell δ)) (d : δ) (m : Memory δ ρ) :
    allocate malloc d m = .ok (some (malloc.address m.cells),
      { m with cells := m.cells.write (malloc.address m.cells) ⟨d, none⟩ }) := rfl

theorem release_of_cell (h : m.cells.cell a = some c) :
    release (some a) m = .ok ((), { m with cells := m.cells.free a }) :=
  step_of_some (by rw [Option.bind_some, h]; rfl)

end Memory

end Sisop

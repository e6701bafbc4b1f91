import Sisop.Dictionary
import Mathlib.Algebra.BigOperators.Group.Finset.Piecewise
import Mathlib.Algebra.GroupWithZero.Nat

/-!
# What the dictionary stores

The elements of a dictionary tile the heap, and each bucket has those whose hash leads to it, in the
order in which they were put. `dictionary_resize` moves them one by one and keeps that order: what
was in one bucket of the old table goes to two of the new one.
-/

namespace Sisop
namespace Dictionary

open Memory

variable {β : Type} {malloc : Allocator (Cell (THashElement β))} {m m' : DictionaryMemory β}
  {entries entries' : List (THashElement β)} {place : ℕ → List (ℕ × THashElement β)}
  {cells : List (ℕ × THashElement β)} {i size rounds : ℕ} {key : CString} {data : Option β}

theorem bucketOf_lt (hash : UInt32) (h : 0 < size) : bucketOf hash size < size := Nat.mod_lt _ h

def inBucket (size i : ℕ) (entries : List (THashElement β)) : List (THashElement β) :=
  entries.filter fun e => bucketOf e.hashcode size = i

def used (place : ℕ → List (ℕ × THashElement β)) (size : ℕ) : ℕ :=
  ∑ i ∈ Finset.range size, if place i = [] then 0 else 1

theorem used_update (hi : i < size) (cells : List (ℕ × THashElement β)) :
    used (Function.update place i cells) size + (if place i = [] then 0 else 1) =
      used place size + if cells = [] then 0 else 1 := by
  have hmem : i ∈ Finset.range size := Finset.mem_range.mpr hi
  have hupdate : (fun k => if Function.update place i cells k = [] then 0 else 1) =
      Function.update (fun k => if place k = [] then 0 else 1) i (if cells = [] then 0 else 1) := by
    funext k
    by_cases hk : k = i
    · rw [hk, Function.update_self, Function.update_self]
    · rw [Function.update_of_ne hk, Function.update_of_ne hk]
  rw [used, used, hupdate, Finset.sum_update_of_mem hmem,
    Finset.sum_eq_add_sum_sdiff_singleton_of_mem hmem fun k => if place k = [] then 0 else 1]
  omega

theorem set_map_range (f : ℕ → Pointer) (p : Pointer) :
    ((List.range size).map f).set i p = (List.range size).map (Function.update f i p) := by
  refine List.ext_getElem (by simp) fun k hk hk' => ?_
  rw [List.getElem_set]
  simp only [List.getElem_map, List.getElem_range]
  by_cases hki : i = k
  · rw [if_pos hki, hki, Function.update_self]
  · rw [if_neg hki, Function.update_of_ne (Ne.symm hki)]

/-- A dictionary that holds `entries`, in the order in which they were put. -/
structure Stored (m : DictionaryMemory β) (entries : List (THashElement β))
    (place : ℕ → List (ℕ × THashElement β)) : Prop where
  tiled : Tiled m.cells (fun i => first (place i)) place
  table : m.root.elements = (List.range m.root.table_max_size).map fun i => first (place i)
  bucket : ∀ i, contents (place i) = inBucket m.root.table_max_size i entries
  positive : 0 < m.root.table_max_size
  current : m.root.table_current_size = used place m.root.table_max_size
  hashed : ∀ e ∈ entries, e.hashcode = dictionaryHash e.key

theorem Stored.outside (h : Stored m entries place) (hi : m.root.table_max_size ≤ i) :
    place i = [] := by
  refine List.map_eq_nil_iff.mp ((h.bucket i).trans (List.filter_eq_nil_iff.mpr fun e _ he => ?_))
  have hlt := bucketOf_lt e.hashcode h.positive
  rw [of_decide_eq_true he] at hlt
  omega

theorem Stored.update (h : Stored m entries place) (hi : i < m.root.table_max_size)
    (hsize : m'.root.table_max_size = m.root.table_max_size)
    (hsegment : Segment m'.cells (first cells) cells none)
    (hreshaped : Reshaped m.cells m'.cells (place i) cells)
    (htable : m'.root.elements = m.root.elements.set i (first cells))
    (hcurrent : m'.root.table_current_size + (if place i = [] then 0 else 1) =
      m.root.table_current_size + if cells = [] then 0 else 1)
    (hbucket : contents cells = inBucket m.root.table_max_size i entries')
    (hother : ∀ j, j ≠ i → inBucket m.root.table_max_size j entries' =
      inBucket m.root.table_max_size j entries)
    (hhashed : ∀ e ∈ entries', e.hashcode = dictionaryHash e.key) :
    Stored m' entries' (Function.update place i cells) := by
  have hhead : (fun k => first (Function.update place i cells k)) =
      Function.update (fun k => first (place k)) i (first cells) := by
    funext k
    by_cases hk : k = i
    · rw [hk, Function.update_self, Function.update_self]
    · rw [Function.update_of_ne hk, Function.update_of_ne hk]
  refine ⟨?_, ?_, fun j => ?_, hsize ▸ h.positive, ?_, hhashed⟩
  · rw [hhead]
    exact h.tiled.update hsegment hreshaped
  · rw [htable, h.table, set_map_range, hsize, hhead]
  · rw [hsize]
    by_cases hj : j = i
    · rw [hj, Function.update_self, hbucket]
    · rw [Function.update_of_ne hj, h.bucket, hother j hj]
  · have hused : used (Function.update place i cells) m.root.table_max_size + _ = _ :=
      used_update hi cells
    rw [h.current] at hcurrent
    rw [hsize]
    split_ifs at hcurrent hused <;> omega

theorem readTable_of_map {f : ℕ → Pointer} (hi : i < size) :
    readTable ((List.range size).map f) i m = .ok (f i, m) :=
  step_of_some (by rw [List.getElem?_map, List.getElem?_range hi]; rfl)

theorem record_apply (m : DictionaryMemory β) : record m = .ok (m.root, m) := rfl

theorem setRecord_apply (f : TDictionary → TDictionary) (m : DictionaryMemory β) :
    setRecord f m = .ok ((), { m with root := f m.root }) := rfl

/-- The walk ends at the last element of the chain. -/
theorem linkLast_of_segment {new_element : Pointer} {start b : ℕ} {e : THashElement β}
    {front : List (ℕ × THashElement β)}
    (h : Segment m.cells (some start) (front ++ [(b, e)]) none) (hrounds : front.length < rounds) :
    linkLast new_element rounds start m =
      .ok ((), { m with cells := m.cells.write b ⟨e, new_element⟩ }) := by
  induction front generalizing start rounds with
  | nil =>
    obtain ⟨rounds, rfl⟩ := Nat.exists_eq_add_one_of_ne_zero (Nat.ne_zero_of_lt hrounds)
    obtain ⟨hstart, next, hcell, rfl⟩ := h
    obtain rfl := Option.some.inj hstart
    rw [linkLast, bind_of_ok (deref_of_cell hcell)]
    exact modify_of_cell hcell _
  | cons cell front ih =>
    obtain ⟨a, d⟩ := cell
    obtain ⟨rounds, rfl⟩ := Nat.exists_eq_add_one_of_ne_zero (Nat.ne_zero_of_lt hrounds)
    obtain ⟨hstart, next, hcell, hrest⟩ := h
    obtain rfl := Option.some.inj hstart
    have hnext : next = first (front ++ [(b, e)]) := hrest.start_eq
    obtain ⟨c, hc⟩ : ∃ c, next = some c := by
      cases front <;> exact ⟨_, hnext⟩
    subst hc
    rw [linkLast, bind_of_ok (deref_of_cell hcell)]
    exact ih hrest (by simpa using hrounds)

section Resize

variable {newSize : ℕ} {newTable : List Pointer} {moved : List (THashElement β)}
  {old new : ℕ → List (ℕ × THashElement β)} {a : ℕ} {d : THashElement β}
  {back : List (ℕ × THashElement β)}

/-- In the middle of `dictionary_resize`: what is left in the old table, and what the new one has of
the elements that were moved. -/
structure Moving (newSize : ℕ) (m : DictionaryMemory β) (newTable : List Pointer)
    (moved : List (THashElement β)) (old new : ℕ → List (ℕ × THashElement β)) : Prop where
  tiled : Tiled m.cells (fun x => first (Sum.elim old new x)) (Sum.elim old new)
  table : newTable = (List.range newSize).map fun j => first (new j)
  bucket : ∀ j, contents (new j) = inBucket newSize j moved
  current : m.root.table_current_size = used new newSize

/-- An element goes from the front of an old bucket to the end of a new one. -/
theorem Moving.move (h : Moving newSize m newTable moved old new) (hold : old i = (a, d) :: back)
    {j : ℕ} (hj : j = bucketOf d.hashcode newSize)
    (hback : Segment m'.cells (first back) back none)
    (hlinked : Segment m'.cells (first (new j ++ [(a, d)])) (new j ++ [(a, d)]) none)
    (hframe : ∀ b, b ≠ a → b ∉ addresses (new j) → m'.cells.cell b = m.cells.cell b)
    (hcurrent : m'.root.table_current_size + (if new j = [] then 0 else 1) =
      m.root.table_current_size + 1) (hpositive : 0 < newSize) :
    Moving newSize m' (newTable.set j (first (new j ++ [(a, d)]))) (moved ++ [d])
      (Function.update old i back) (Function.update new j (new j ++ [(a, d)])) := by
  have hj' : j < newSize := hj ▸ bucketOf_lt d.hashcode hpositive
  have hplace : Sum.elim (Function.update old i back) (Function.update new j (new j ++ [(a, d)])) =
      Function.update (Function.update (Sum.elim old new) (.inl i) back) (.inr j)
        (new j ++ [(a, d)]) := by
    rw [Sum.update_elim_inl, Sum.update_elim_inr]
  have hhead : (fun x => first (Function.update (Function.update (Sum.elim old new) (.inl i) back)
      (.inr j) (new j ++ [(a, d)]) x)) =
        Function.update (Function.update (fun x => first (Sum.elim old new x)) (.inl i)
          (first back)) (.inr j) (first (new j ++ [(a, d)])) := by
    funext x
    by_cases hx : x = .inr j
    · rw [hx, Function.update_self, Function.update_self]
    · rw [Function.update_of_ne hx, Function.update_of_ne hx]
      by_cases hx' : x = .inl i
      · rw [hx', Function.update_self, Function.update_self]
      · rw [Function.update_of_ne hx', Function.update_of_ne hx']
  have hnodup := (h.tiled.chain (.inl i)).nodup
  rw [Sum.elim_inl, hold, addresses_cons, List.nodup_cons] at hnodup
  refine ⟨?_, ?_, fun k => ?_, ?_⟩
  · rw [hplace, hhead]
    refine h.tiled.exchange Sum.inl_ne_inr hback hlinked (fun b => ?_) (fun b hb hmem => ?_)
      fun b hb hb' => ?_
    · simp only [Sum.elim_inl, Sum.elim_inr, hold, addresses_append, addresses_cons,
        addresses_nil, List.mem_append, List.mem_cons, List.not_mem_nil, or_false]
      tauto
    · rw [addresses_append, List.mem_append] at hmem
      rcases hmem with hmem | hmem
      · have heq := h.tiled.apart (.inl i) (.inr j) b
          (by rw [Sum.elim_inl, hold]; exact List.mem_cons_of_mem _ hb) hmem
        cases heq
      · obtain rfl : b = a := List.mem_singleton.mp hmem
        exact hnodup.1 hb
    · rw [Sum.elim_inl, hold] at hb
      exact hframe b (List.ne_of_not_mem_cons hb) hb'
  · rw [h.table, set_map_range]
    refine List.map_congr_left fun k _ => ?_
    by_cases hk : k = j
    · rw [hk, Function.update_self, Function.update_self]
    · rw [Function.update_of_ne hk, Function.update_of_ne hk]
  · rw [inBucket, List.filter_append]
    by_cases hk : k = j
    · rw [hk, Function.update_self, contents_append, h.bucket, inBucket,
        List.filter_cons_of_pos (by simpa using hj.symm)]
      rfl
    · rw [Function.update_of_ne hk, h.bucket, inBucket,
        List.filter_cons_of_neg (by simpa [← hj] using Ne.symm hk), List.filter_nil,
        List.append_nil]
  · have hused : used (Function.update new j (new j ++ [(a, d)])) newSize + _ = _ :=
      used_update hj' (new j ++ [(a, d)])
    rw [h.current] at hcurrent
    rw [if_neg (show new j ++ [(a, d)] ≠ [] by simp)] at hused
    split_ifs at hcurrent hused <;> omega

theorem first_concat (front : List (ℕ × THashElement β)) (x y : ℕ × THashElement β) :
    first (front ++ [x] ++ [y]) = first (front ++ [x]) := by
  cases front <;> rfl

theorem length_new (h : Moving newSize m newTable moved old new) (j : ℕ) :
    (new j).length ≤ moved.length := by
  rw [← length_contents, h.bucket]
  exact List.length_filter_le _ _

theorem Moving.old_cell (h : Moving newSize m newTable moved old new)
    (hold : old i = (a, d) :: back) : m.cells.cell a = some ⟨d, first back⟩ := by
  have hchain := h.tiled.chain (.inl i)
  rw [Sum.elim_inl, hold] at hchain
  exact (show Segment m.cells _ ([] ++ (a, d) :: back) none from hchain).cell_eq

/-- The element is linked with the rest of the old bucket still behind it, and then cut off. -/
theorem placeElement_ends (h : Moving newSize m newTable moved old new)
    (hold : old i = (a, d) :: back) (hpositive : 0 < newSize) (hrounds : moved.length < rounds) :
    Ends (placeElement rounds newTable (bucketOf d.hashcode newSize) a) m fun newTable' m₁ =>
      m₁.cells.cell a = some ⟨d, first back⟩ ∧
      m₁.root = { m.root with table_current_size := m₁.root.table_current_size } ∧
      Moving newSize { m₁ with cells := m₁.cells.write a ⟨d, none⟩ } newTable' (moved ++ [d])
        (Function.update old i back) (Function.update new (bucketOf d.hashcode newSize)
          (new (bucketOf d.hashcode newSize) ++ [(a, d)])) := by
  generalize hj : bucketOf d.hashcode newSize = j
  have hj' : j < newSize := hj ▸ bucketOf_lt d.hashcode hpositive
  have hcell := h.old_cell hold
  have hchain := h.tiled.chain (.inl i)
  rw [Sum.elim_inl, hold] at hchain
  have hnodup := hchain.nodup
  rw [addresses_cons, List.nodup_cons] at hnodup
  obtain ⟨-, next, -, hback⟩ := hchain
  have hnext := hback.start_eq
  subst hnext
  have hread : readTable newTable j m = .ok (first (new j), m) := by
    rw [h.table]
    exact readTable_of_map hj'
  refine Ends.bind_of_ok hread ?_
  rcases List.eq_nil_or_concat' (new j) with hnil | ⟨front, ⟨b, e⟩, hfront⟩
  · rw [hnil]
    refine Ends.bind_of_ok (setRecord_apply _ m) ?_
    refine Ends.pure ⟨hcell, rfl, ?_⟩
    have hmoving : Moving newSize { m with
        cells := m.cells.write a ⟨d, none⟩
        root := { m.root with table_current_size := m.root.table_current_size + 1 } } _ _ _ _ :=
      h.move hold hj.symm (hback.congr fun c hc => Heap.cell_write_of_ne ?_) ?_
      (fun c hca _ => Heap.cell_write_of_ne hca) (by rw [if_pos hnil]; simp) hpositive
    · rwa [hnil] at hmoving
    · rintro rfl
      exact hnodup.1 hc
    · rw [hnil]
      exact ⟨rfl, none, Heap.cell_write_self, rfl⟩
  · have hnew := h.tiled.chain (.inr j)
    rw [Sum.elim_inr, hfront] at hnew
    have hb : m.cells.cell b = some ⟨e, none⟩ := hnew.cell_eq
    have hnewNodup := hnew.nodup
    rw [addresses_append, List.nodup_append] at hnewNodup
    -- an old bucket has no element of a new one
    have hapart : ∀ c, c ∈ addresses (old i) → c ∉ addresses (new j) := by
      intro c hc hc'
      cases h.tiled.apart (.inl i) (.inr j) c hc hc'
    rw [hold, hfront] at hapart
    have hab : a ≠ b := by
      rintro rfl
      exact hapart a List.mem_cons_self (by simp)
    have hlength := length_new h j
    rw [hfront, List.length_append, List.length_singleton] at hlength
    obtain ⟨start, hstart⟩ : ∃ start, first (front ++ [(b, e)]) = some start := by
      cases front <;> exact ⟨_, rfl⟩
    rw [hfront, hstart]
    rw [hstart] at hnew
    refine Ends.bind_of_ok (linkLast_of_segment hnew (by omega)) ?_
    refine Ends.pure ⟨(Heap.cell_write_of_ne hab).trans hcell, rfl, ?_⟩
    have hmoving : Moving newSize { m with
        cells := (m.cells.write b ⟨e, some a⟩).write a ⟨d, none⟩ } _ _ _ _ := h.move hold hj.symm
      (hback.congr fun c hc => ?_) ?_ (fun c hca hc => ?_)
      (by rw [if_neg (by rw [hfront]; simp)]) hpositive
    · have hsame : newTable.set j (first (new j ++ [(a, d)])) = newTable := by
        rw [hfront, first_concat, ← hfront, h.table, set_map_range, Function.update_eq_self]
      rwa [hsame, hfront] at hmoving
    · refine (Heap.cell_write_of_ne ?_).trans (Heap.cell_write_of_ne ?_)
      · rintro rfl
        exact hnodup.1 hc
      · rintro rfl
        exact hapart c (List.mem_cons_of_mem _ hc) (by simp)
    · rw [hfront, first_concat, hstart]
      refine segment_append.mpr ⟨some a, ?_, rfl, none, Heap.cell_write_self, rfl⟩
      refine hnew.relink _ (some a) (fun c hc => ?_)
        ((Heap.cell_write_of_ne (Ne.symm hab)).trans Heap.cell_write_self)
      refine (Heap.cell_write_of_ne ?_).trans (Heap.cell_write_of_ne ?_)
      · rintro rfl
        exact hapart c List.mem_cons_self (by simp [hc])
      · exact hnewNodup.2.2 c hc b List.mem_cons_self
    · refine (Heap.cell_write_of_ne hca).trans (Heap.cell_write_of_ne ?_)
      rintro rfl
      exact hc (by rw [hfront]; simp)

/-- A bucket of the old table is emptied. -/
theorem moveChain_ends (h : Moving newSize m newTable moved old new) (hold : old i = cells)
    (hpositive : 0 < newSize) (hrounds : moved.length + 2 * cells.length < rounds) :
    Ends (moveChain newSize rounds newTable (first cells)) m fun newTable' m' =>
      m'.root = { m.root with table_current_size := m'.root.table_current_size } ∧
        ∃ new', Moving newSize m' newTable' (moved ++ contents cells)
          (Function.update old i []) new' := by
  induction cells generalizing m newTable moved old new rounds with
  | nil =>
    obtain ⟨rounds, rfl⟩ := Nat.exists_eq_add_one_of_ne_zero (Nat.ne_zero_of_lt hrounds)
    refine Ends.pure ⟨rfl, new, ?_⟩
    rw [← hold, Function.update_eq_self, hold, contents_nil, List.append_nil]
    exact h
  | cons cell back ih =>
    obtain ⟨a, d⟩ := cell
    obtain ⟨rounds, rfl⟩ := Nat.exists_eq_add_one_of_ne_zero (Nat.ne_zero_of_lt hrounds)
    rw [List.length_cons] at hrounds
    refine Ends.bind_of_ok (deref_of_cell (h.old_cell hold)) ?_
    refine (placeElement_ends h hold hpositive (by omega)).bind fun newTable₁ m₁ hm₁ => ?_
    obtain ⟨hcell, hroot, hmoving⟩ := hm₁
    refine Ends.bind_of_ok (deref_of_cell hcell) ?_
    refine Ends.bind_of_ok (modify_of_cell hcell _) ?_
    refine (ih hmoving (Function.update_self ..)
      (by rw [List.length_append, List.length_singleton]; omega)).mono fun newTable' m' hm' => ?_
    obtain ⟨hroot', new', hmoved⟩ := hm'
    rw [Function.update_idem, List.append_assoc] at hmoved
    refine ⟨?_, new', hmoved⟩
    rw [hroot']
    dsimp only
    rw [hroot]

/-- The old table from one index on. -/
theorem moveTable_ends (indices : List ℕ) (hnodup : indices.Nodup)
    (h : Moving newSize m newTable moved old new) (hpositive : 0 < newSize)
    (hrounds : 2 * (moved.length + (indices.flatMap fun i => contents (old i)).length) < rounds) :
    Ends (moveTable newSize rounds (indices.map fun i => first (old i)) newTable) m
      fun newTable' m' =>
        m'.root = { m.root with table_current_size := m'.root.table_current_size } ∧
          ∃ new', Moving newSize m' newTable'
            (moved ++ indices.flatMap fun i => contents (old i))
            (fun i => if i ∈ indices then [] else old i) new' := by
  induction indices generalizing m newTable moved old new with
  | nil =>
    refine Ends.pure ⟨rfl, new, ?_⟩
    simpa using h
  | cons i indices ih =>
    obtain ⟨hi, hrest⟩ := List.nodup_cons.mp hnodup
    rw [List.flatMap_cons, List.length_append, length_contents] at hrounds
    refine (moveChain_ends h rfl hpositive (by omega)).bind fun newTable₁ m₁ hm₁ => ?_
    obtain ⟨hroot, new₁, hmoving⟩ := hm₁
    have hsame : ∀ k ∈ indices, Function.update old i [] k = old k := by
      rintro k hk
      refine Function.update_of_ne ?_ ..
      rintro rfl
      exact hi hk
    have hheads : (indices.map fun k => first (Function.update old i [] k)) =
        indices.map fun k => first (old k) := List.map_congr_left fun k hk => by rw [hsame k hk]
    have hcontents : (indices.flatMap fun k => contents (Function.update old i [] k)) =
        indices.flatMap fun k => contents (old k) := by
      rw [List.flatMap_def, List.flatMap_def]
      exact congrArg List.flatten (List.map_congr_left fun k hk => by rw [hsame k hk])
    have hmoved := ih hrest hmoving
      (by rw [hcontents, List.length_append, length_contents]; omega)
    rw [hheads, hcontents] at hmoved
    refine hmoved.mono fun newTable' m' hm' => ?_
    obtain ⟨hroot', new', hmoving'⟩ := hm'
    refine ⟨by rw [hroot', hroot], new', ?_⟩
    rw [List.flatMap_cons, ← List.append_assoc]
    have hold : (fun k => if k ∈ i :: indices then [] else old k) =
        fun k => if k ∈ indices then [] else Function.update old i [] k := by
      funext k
      by_cases hk : k = i
      · rw [if_pos (by simp [hk]), hk, Function.update_self, ite_self]
      · rw [Function.update_of_ne hk]
        simp [hk]
    rw [hold]
    exact hmoving'

theorem flatMap_single {γ : Type} {k : ℕ} (hk : k < size) (xs : List γ) :
    ((List.range size).flatMap fun i => if i = k then xs else []) = xs := by
  induction size with
  | zero => exact absurd hk (Nat.not_lt_zero k)
  | succ size ih =>
    rw [List.range_succ, List.flatMap_append, List.flatMap_singleton]
    by_cases hlast : size = k
    · have hbefore : ((List.range size).flatMap fun i => if i = k then xs else []) = [] := by
        refine List.flatMap_eq_nil_iff.mpr fun i hi => if_neg ?_
        have hlt := List.mem_range.mp hi
        omega
      rw [hbefore, if_pos hlast, List.nil_append]
    · rw [ih (by omega), if_neg hlast, List.append_nil]

/-- The buckets of a table one after the other have the elements of each bucket of a table whose
size is a multiple in their order. -/
theorem inBucket_flatMap (hdvd : size ∣ newSize) (hsize : 0 < size) (j : ℕ)
    (entries : List (THashElement β)) :
    inBucket newSize j ((List.range size).flatMap fun i => inBucket size i entries) =
      inBucket newSize j entries := by
  have hbuckets : ∀ i, inBucket newSize j (inBucket size i entries) =
      if i = j % size then inBucket newSize j entries else [] := by
    intro i
    rw [inBucket, inBucket, List.filter_filter]
    split_ifs with hi
    · refine List.filter_congr fun e _ => ?_
      rw [Bool.and_eq_left_iff_imp]
      intro he
      rw [decide_eq_true_eq] at he ⊢
      rw [hi, ← he, bucketOf, bucketOf, Nat.mod_mod_of_dvd _ hdvd]
    · refine List.filter_eq_nil_iff.mpr fun e _ he => hi ?_
      rw [Bool.and_eq_true, decide_eq_true_eq, decide_eq_true_eq] at he
      rw [← he.1, ← he.2, bucketOf, bucketOf, Nat.mod_mod_of_dvd _ hdvd]
  have hfilter : inBucket newSize j ((List.range size).flatMap fun i => inBucket size i entries) =
      (List.range size).flatMap fun i => inBucket newSize j (inBucket size i entries) :=
    List.filter_flatMap
  rw [hfilter]
  simp only [hbuckets]
  exact flatMap_single (Nat.mod_lt _ hsize) _

theorem sum_range_indicator {k : ℕ} (hk : k < size) :
    ((List.range size).map fun i => (if k = i then 1 else 0 : ℕ)).sum = 1 := by
  induction size with
  | zero => exact absurd hk (Nat.not_lt_zero k)
  | succ size ih =>
    rw [List.range_succ, List.map_append, List.sum_append, List.map_singleton, List.sum_singleton]
    by_cases hlast : k = size
    · have hbefore : ((List.range size).map fun i => (if k = i then 1 else 0 : ℕ)).sum = 0 := by
        refine List.sum_eq_zero fun n hn => ?_
        obtain ⟨i, hi, rfl⟩ := List.mem_map.mp hn
        have hlt := List.mem_range.mp hi
        exact if_neg (by omega)
      rw [hbefore, if_pos hlast]
    · rw [ih (by omega), if_neg hlast]

theorem length_flatMap_inBucket (hsize : 0 < size) (entries : List (THashElement β)) :
    ((List.range size).flatMap fun i => inBucket size i entries).length = entries.length := by
  rw [List.length_flatMap]
  induction entries with
  | nil => simp [inBucket]
  | cons e entries ih =>
    have hcons : ∀ i, (inBucket size i (e :: entries)).length =
        (if bucketOf e.hashcode size = i then 1 else 0) + (inBucket size i entries).length := by
      intro i
      rw [inBucket, inBucket, List.filter_cons]
      by_cases he : bucketOf e.hashcode size = i
      · rw [if_pos he, if_pos (decide_eq_true he), List.length_cons, Nat.add_comm]
      · rw [if_neg he, if_neg (by simpa using he), Nat.zero_add]
    simp only [hcons]
    rw [List.sum_map_add, ih, sum_range_indicator (bucketOf_lt e.hashcode hsize), List.length_cons]
    omega

/-- Nothing is lost, and the order in each bucket is that of the puts. -/
theorem dictionaryResize_ends (h : Stored m entries place) (hrounds : 2 * entries.length < rounds)
    (hmultiple : m.root.table_max_size ∣ newSize) (hpositive : 0 < newSize) :
    Ends (dictionaryResize rounds newSize) m fun _ m' =>
      m'.root.table_max_size = newSize ∧ m'.root.elements_amount = m.root.elements_amount ∧
        ∃ place', Stored m' entries place' := by
  refine Ends.bind_of_ok (record_apply m) ?_
  refine Ends.bind_of_ok (setRecord_apply _ m) ?_
  have hmoving : Moving newSize
      { m with root := { m.root with table_current_size := 0 } } (List.replicate newSize none)
      [] place fun _ => [] := by
    refine ⟨h.tiled.extend Sum.inl (fun _ => rfl) (fun _ => rfl) fun x hx => ?_, ?_, fun _ => rfl,
      ?_⟩
    · cases x with
      | inl i => exact absurd rfl (hx i)
      | inr j => exact ⟨rfl, rfl⟩
    · refine (List.eq_replicate_iff.mpr ⟨by simp, fun p hp => ?_⟩).symm
      obtain ⟨j, -, rfl⟩ := List.mem_map.mp hp
      rfl
    · simp [used]
  have hbuckets : ((List.range m.root.table_max_size).flatMap fun i => contents (place i)) =
      (List.range m.root.table_max_size).flatMap fun i => inBucket m.root.table_max_size i
        entries := by
    simp only [h.bucket]
  have hmoved := moveTable_ends (List.range m.root.table_max_size) List.nodup_range hmoving
    hpositive (by rw [hbuckets, length_flatMap_inBucket h.positive]; simpa using hrounds)
  rw [← h.table] at hmoved
  refine hmoved.bind fun newTable m₁ hm₁ => ?_
  obtain ⟨hroot, new, hmoving₁⟩ := hm₁
  have hold : (fun i => if i ∈ List.range m.root.table_max_size then [] else place i) =
      fun _ => [] := by
    funext i
    split_ifs with hi
    · rfl
    · exact h.outside (by simpa using hi)
  rw [hold, List.nil_append, hbuckets] at hmoving₁
  refine Ends.of_ok (setRecord_apply _ m₁) ⟨rfl, by rw [hroot], new, ?_⟩
  refine ⟨?_, hmoving₁.table, fun j => ?_, hpositive, hmoving₁.current, h.hashed⟩
  · exact hmoving₁.tiled.restrict Sum.inr_injective fun x hx => by
      cases x with
      | inl i => rfl
      | inr j => exact absurd rfl (hx j)
  · rw [hmoving₁.bucket, inBucket_flatMap hmultiple h.positive]

end Resize

/-- A new element comes last in its bucket. -/
theorem inBucket_append (e : THashElement β) (j : ℕ) :
    inBucket size j (entries ++ [e]) =
      inBucket size j entries ++ if bucketOf e.hashcode size = j then [e] else [] := by
  rw [inBucket, List.filter_append, inBucket]
  by_cases he : bucketOf e.hashcode size = j
  · rw [if_pos he, List.filter_cons_of_pos (by simpa using he), List.filter_nil]
  · rw [if_neg he, List.filter_cons_of_neg (by simpa using he), List.filter_nil]

/-- The entries `entries'` are `entries` but for the bucket `i`, which `cells` hold. -/
structure Rebucketed (size i : ℕ) (entries entries' : List (THashElement β))
    (cells : List (ℕ × THashElement β)) : Prop where
  bucket : contents cells = inBucket size i entries'
  other : ∀ j, j ≠ i → inBucket size j entries' = inBucket size j entries
  hashed : ∀ e ∈ entries', e.hashcode = dictionaryHash e.key

theorem rebucketed_append {a : ℕ} {d : THashElement β} (h : Stored m entries place)
    (hhash : d.hashcode = dictionaryHash d.key)
    (hi : bucketOf d.hashcode m.root.table_max_size = i) :
    Rebucketed m.root.table_max_size i entries (entries ++ [d]) (place i ++ [(a, d)]) := by
  refine ⟨?_, fun j hj => ?_, fun e he => ?_⟩
  · rw [contents_append, inBucket_append, hi, if_pos rfl, h.bucket]
    rfl
  · rw [inBucket_append, hi, if_neg (Ne.symm hj), List.append_nil]
  · rcases List.mem_append.mp he with he | he
    · exact h.hashed e he
    · rw [List.mem_singleton.mp he, hhash]

theorem Stored.length_bucket (h : Stored m entries place) (i : ℕ) :
    (place i).length ≤ entries.length := by
  rw [← length_contents, h.bucket]
  exact List.length_filter_le _ _

/-- The first element of a bucket is in, and the table may have to grow. -/
theorem putFirst_ends {a : ℕ} {d : THashElement β} (h : Stored m entries place)
    (hi : i < m.root.table_max_size) (hnil : place i = []) (hunused : m.cells.cell a = none)
    (hentries : Rebucketed m.root.table_max_size i entries entries' (place i ++ [(a, d)]))
    (hrounds : 2 * entries'.length < rounds) :
    Ends (putFirst rounds i (some a)) { m with cells := m.cells.write a ⟨d, none⟩ } fun _ m' =>
      m'.root.elements_amount = m.root.elements_amount ∧ ∃ place', Stored m' entries' place' := by
  have hchain := h.tiled.chain i
  rw [hnil] at hchain hentries
  obtain ⟨hsegment, hreshaped⟩ := hchain.push (m.cells.write a ⟨d, none⟩) hunused
    Heap.cell_write_self fun c hc => Heap.cell_write_of_ne hc
  have hstored : Stored { m with
      cells := m.cells.write a ⟨d, none⟩
      root := { m.root with
        elements := m.root.elements.set i (some a)
        table_current_size := m.root.table_current_size + 1 } } _ _ :=
    h.update hi rfl (show Segment _ (first [(a, d)]) [(a, d)] none from hsegment)
      (by rw [hnil]; exact hreshaped) rfl (by simp [hnil]) hentries.bucket hentries.other
      hentries.hashed
  refine Ends.bind_of_ok (setRecord_apply _ _) ?_
  refine Ends.bind_of_ok (setRecord_apply _ _) ?_
  refine Ends.bind_of_ok (record_apply _) ?_
  split_ifs
  · refine (dictionaryResize_ends hstored hrounds (Dvd.intro 2 rfl)
      (Nat.mul_pos hstored.positive Nat.two_pos)).mono fun _ m₁ hm₁ => ?_
    exact ⟨hm₁.2.1, hm₁.2.2⟩
  · exact Ends.pure ⟨rfl, _, hstored⟩

/-- The element is linked behind the last one of its bucket. -/
theorem linkLast_ends {a b start : ℕ} {d e : THashElement β} {front : List (ℕ × THashElement β)}
    (h : Stored m entries place) (hi : i < m.root.table_max_size)
    (hfront : place i = front ++ [(b, e)]) (hstart : first (place i) = some start)
    (hunused : m.cells.cell a = none)
    (hentries : Rebucketed m.root.table_max_size i entries entries' (place i ++ [(a, d)]))
    (hrounds : entries.length < rounds) :
    Ends (linkLast (some a) rounds start) { m with cells := m.cells.write a ⟨d, none⟩ } fun _ m' =>
      m'.root.elements_amount = m.root.elements_amount ∧ ∃ place', Stored m' entries' place' := by
  have hchain := h.tiled.chain i
  have hlength := h.length_bucket i
  rw [hfront] at hchain hlength hentries hstart
  rw [List.append_assoc, List.singleton_append] at hentries
  rw [List.length_append, List.length_singleton] at hlength
  have hne : b ≠ a := by
    rintro rfl
    rw [hchain.cell_eq] at hunused
    cases hunused
  obtain ⟨hsegment, hreshaped⟩ := hchain.insert
    ((m.cells.write a ⟨d, none⟩).write b ⟨e, some a⟩) hunused Heap.cell_write_self
    ((Heap.cell_write_of_ne (Ne.symm hne)).trans Heap.cell_write_self)
    fun c hca hcb => (Heap.cell_write_of_ne hcb).trans (Heap.cell_write_of_ne hca)
  have hfirst : first (front ++ (b, e) :: [(a, d)]) = first (front ++ [(b, e)]) := by
    cases front <;> rfl
  have hkept : Segment (m.cells.write a ⟨d, none⟩) (some start) (front ++ [(b, e)]) none := by
    rw [← hstart]
    refine hchain.congr fun c hc => Heap.cell_write_of_ne ?_
    rintro rfl
    exact hchain.live hc hunused
  refine Ends.of_ok (linkLast_of_segment hkept (by omega)) ⟨rfl, _, h.update hi rfl
    (hfirst ▸ hsegment) (by rw [hfront]; exact hreshaped) ?_ ?_ hentries.bucket hentries.other
    hentries.hashed⟩
  · rw [hfirst, ← hfront, h.table, set_map_range, Function.update_eq_self]
  · simp [hfront]

theorem addToAmount_ends (n : ℤ) (h : Stored m entries place) :
    Ends (addToAmount n) m fun _ m' =>
      m'.root.elements_amount = m.root.elements_amount + n ∧ ∃ place', Stored m' entries place' :=
  Ends.of_ok (setRecord_apply _ m) ⟨rfl, place, h.tiled, h.table, h.bucket, h.positive, h.current,
    h.hashed⟩

theorem dictionaryPut_ends (malloc : Allocator (Cell (THashElement β))) (key : CString)
    (data : Option β) (h : Stored m entries place) (hrounds : 2 * entries.length + 2 < rounds) :
    Ends (dictionaryPut malloc rounds key data) m fun _ m' =>
      m'.root.elements_amount = m.root.elements_amount + 1 ∧
        ∃ place', Stored m' (entries ++ [⟨key, dictionaryHash key, data⟩]) place' := by
  have hunused := malloc.isUnused m.cells
  have hi := bucketOf_lt (dictionaryHash key) h.positive
  have hentries : ∀ a, Rebucketed m.root.table_max_size
      (bucketOf (dictionaryHash key) m.root.table_max_size) entries
      (entries ++ [⟨key, dictionaryHash key, data⟩]) (place _ ++ [(a, _)]) :=
    fun a => rebucketed_append h rfl rfl
  refine Ends.bind_of_ok (record_apply m) ?_
  refine Ends.bind_of_ok (allocate_apply malloc _ m) ?_
  generalize malloc.address m.cells = a at hunused
  generalize (⟨key, dictionaryHash key, data⟩ : THashElement β) = d at hentries ⊢
  generalize bucketOf (dictionaryHash key) m.root.table_max_size = i at hi hentries ⊢
  have hread : readTable m.root.elements i { m with cells := m.cells.write a ⟨d, none⟩ } =
      .ok (first (place i), { m with cells := m.cells.write a ⟨d, none⟩ }) := by
    rw [h.table]
    exact readTable_of_map hi
  have hcount : ∀ m₁ : DictionaryMemory β, (m₁.root.elements_amount = m.root.elements_amount ∧
      ∃ place', Stored m₁ (entries ++ [d]) place') → Ends (addToAmount 1) m₁ fun _ m' =>
        m'.root.elements_amount = m.root.elements_amount + 1 ∧
          ∃ place', Stored m' (entries ++ [d]) place' := by
    rintro m₁ ⟨hamount, place₁, hstored₁⟩
    rw [← hamount]
    exact addToAmount_ends 1 hstored₁
  refine Ends.bind_of_ok hread ?_
  rcases List.eq_nil_or_concat' (place i) with hnil | ⟨front, ⟨b, e⟩, hfront⟩
  · rw [hnil]
    refine (putFirst_ends h hi hnil hunused (hentries a) ?_).bind fun _ => hcount
    rw [List.length_append, List.length_singleton]
    omega
  · obtain ⟨start, hstart⟩ : ∃ start, first (place i) = some start := by
      rw [hfront]
      cases front <;> exact ⟨_, rfl⟩
    rw [hstart]
    exact (linkLast_ends h hi hfront hstart hunused (hentries a) (by omega)).bind fun _ => hcount

def withHash (hash : UInt32) (entries : List (THashElement β)) : Option (THashElement β) :=
  entries.find? fun e => e.hashcode = hash

theorem withHash_inBucket (hash : UInt32) (size : ℕ) (entries : List (THashElement β)) :
    withHash hash (inBucket size (bucketOf hash size) entries) = withHash hash entries := by
  rw [withHash, inBucket, List.find?_filter, withHash]
  congr 1
  funext e
  by_cases he : e.hashcode = hash
  · simp [he]
  · simp [he]

theorem findHash_of_segment {start : Pointer} {hash : UInt32}
    (h : Segment m.cells start cells none) (hrounds : cells.length < rounds) :
    findHash hash rounds start m =
      .ok ((cells.find? fun c => c.2.hashcode = hash).map Prod.fst, m) := by
  induction cells generalizing start rounds with
  | nil =>
    obtain ⟨rounds, rfl⟩ := Nat.exists_eq_add_one_of_ne_zero (Nat.ne_zero_of_lt hrounds)
    obtain rfl : start = none := h
    rfl
  | cons cell cells ih =>
    obtain ⟨a, d⟩ := cell
    obtain ⟨rounds, rfl⟩ := Nat.exists_eq_add_one_of_ne_zero (Nat.ne_zero_of_lt hrounds)
    obtain ⟨rfl, next, hcell, hrest⟩ := h
    rw [findHash, bind_of_ok (deref_of_cell hcell), List.find?_cons]
    by_cases hd : d.hashcode = hash
    · rw [if_pos hd, decide_eq_true hd]
      rfl
    · rw [if_neg hd, decide_eq_false hd]
      exact ih hrest (by simpa using hrounds)

theorem Stored.read (h : Stored m entries place) (hi : i < m.root.table_max_size) :
    readTable m.root.elements i m = .ok (first (place i), m) := by
  rw [h.table]
  exact readTable_of_map hi

theorem dictionaryGetElement_of_stored (h : Stored m entries place) (key : CString)
    (hrounds : entries.length < rounds) : dictionaryGetElement rounds key m =
      .ok (((place (bucketOf (dictionaryHash key) m.root.table_max_size)).find?
        fun c => c.2.hashcode = dictionaryHash key).map Prod.fst, m) := by
  have hlength := h.length_bucket (bucketOf (dictionaryHash key) m.root.table_max_size)
  rw [dictionaryGetElement, bind_of_ok (record_apply m), bind_of_ok (h.read
    (bucketOf_lt _ h.positive)), findHash_of_segment (h.tiled.chain _) (by omega)]

theorem withHash_contents (hash : UInt32) (cells : List (ℕ × THashElement β)) :
    withHash hash (contents cells) =
      (cells.find? fun c => c.2.hashcode = hash).map Prod.snd := by
  rw [withHash, contents, List.find?_map]
  rfl

theorem dictionaryGet_of_stored (h : Stored m entries place) (key : CString)
    (hrounds : entries.length < rounds) : dictionaryGet rounds key m =
      .ok ((withHash (dictionaryHash key) entries).bind THashElement.data, m) := by
  rw [dictionaryGet, bind_of_ok (dictionaryGetElement_of_stored h key hrounds),
    ← withHash_inBucket _ m.root.table_max_size, ← h.bucket, withHash_contents]
  cases hfind : (place (bucketOf (dictionaryHash key) m.root.table_max_size)).find?
      fun c => c.2.hashcode = dictionaryHash key with
  | none => rfl
  | some cell =>
    obtain ⟨a, d⟩ := cell
    obtain ⟨front, back, hplace⟩ := List.append_of_mem (List.mem_of_find?_eq_some hfind)
    have hchain := h.tiled.chain (bucketOf (dictionaryHash key) m.root.table_max_size)
    rw [hplace] at hchain
    exact bind_of_ok (deref_of_cell hchain.cell_eq)

theorem dictionaryHasKey_of_stored (h : Stored m entries place) (key : CString)
    (hrounds : entries.length < rounds) : dictionaryHasKey rounds key m =
      .ok ((withHash (dictionaryHash key) entries).isSome, m) := by
  rw [dictionaryHasKey, bind_of_ok (dictionaryGetElement_of_stored h key hrounds),
    ← withHash_inBucket _ m.root.table_max_size, ← h.bucket, withHash_contents]
  cases (place (bucketOf (dictionaryHash key) m.root.table_max_size)).find?
    fun c => c.2.hashcode = dictionaryHash key <;> rfl

section Remove

variable {hash : UInt32} {start b c : ℕ} {e f : THashElement β}
  {front back : List (ℕ × THashElement β)}

/-- The element with the hash is taken out from behind the last one without it. -/
theorem removeBehind_of_segment
    (h : Segment m.cells (some start) (front ++ (b, e) :: (c, f) :: back) none)
    (hfront : ∀ x ∈ front ++ [(b, e)], x.2.hashcode ≠ hash) (hf : f.hashcode = hash)
    (hne : b ≠ c) (hrounds : front.length < rounds) :
    removeBehind hash rounds start m =
      .ok (f.data, { m with cells := (m.cells.write b ⟨e, first back⟩).free c }) := by
  induction front generalizing start rounds with
  | nil =>
    obtain ⟨rounds, rfl⟩ := Nat.exists_eq_add_one_of_ne_zero (Nat.ne_zero_of_lt hrounds)
    obtain ⟨hstart, next, hcell, hrest⟩ := h
    obtain rfl := Option.some.inj hstart
    obtain ⟨rfl, next', hcell', hback⟩ := hrest
    have hnext := hback.start_eq
    subst hnext
    rw [removeBehind, bind_of_ok (deref_of_cell hcell)]
    dsimp only
    rw [bind_of_ok (deref_of_cell hcell'), if_pos hf, bind_of_ok (modify_of_cell hcell _),
      bind_of_ok (release_of_cell ((Heap.cell_write_of_ne (Ne.symm hne)).trans hcell'))]
    rfl
  | cons x front ih =>
    obtain ⟨rounds, rfl⟩ := Nat.exists_eq_add_one_of_ne_zero (Nat.ne_zero_of_lt hrounds)
    obtain ⟨hstart, next, hcell, hrest⟩ := h
    obtain rfl := Option.some.inj hstart
    obtain ⟨⟨y, d⟩, rest, hcons⟩ : ∃ y rest, front ++ (b, e) :: (c, f) :: back = y :: rest := by
      cases front <;> exact ⟨_, _, rfl⟩
    have hd : d.hashcode ≠ hash := by
      refine hfront (y, d) (List.mem_cons_of_mem _ ?_)
      cases front with
      | nil =>
        cases hcons
        exact List.mem_singleton_self _
      | cons z front =>
        cases hcons
        exact List.mem_append_left _ List.mem_cons_self
    obtain ⟨rfl, next', hcell', -⟩ : Segment m.cells next ((y, d) :: rest) none := hcons ▸ hrest
    rw [removeBehind, bind_of_ok (deref_of_cell hcell)]
    dsimp only
    rw [bind_of_ok (deref_of_cell hcell'), if_neg hd]
    exact ih hrest (fun z hz => hfront z (List.mem_cons_of_mem _ hz)) (by simpa using hrounds)

theorem removeBehind_none (h : Segment m.cells (some start) cells none)
    (hcells : ∀ x ∈ cells, x.2.hashcode ≠ hash) (hrounds : cells.length < rounds) :
    removeBehind hash rounds start m = .ok (none, m) := by
  induction cells generalizing start rounds with
  | nil => cases (show some start = none from h)
  | cons x cells ih =>
    obtain ⟨rounds, rfl⟩ := Nat.exists_eq_add_one_of_ne_zero (Nat.ne_zero_of_lt hrounds)
    obtain ⟨hstart, next, hcell, hrest⟩ := h
    obtain rfl := Option.some.inj hstart
    rw [removeBehind, bind_of_ok (deref_of_cell hcell)]
    cases cells with
    | nil =>
      obtain rfl : next = none := hrest
      rfl
    | cons y cells =>
      obtain ⟨rfl, next', hcell', -⟩ := id hrest
      dsimp only
      rw [bind_of_ok (deref_of_cell hcell'),
        if_neg (hcells y (List.mem_cons_of_mem _ List.mem_cons_self))]
      exact ih hrest (fun z hz => hcells z (List.mem_cons_of_mem _ hz)) (by simpa using hrounds)

def withoutHash (hash : UInt32) (entries : List (THashElement β)) : List (THashElement β) :=
  entries.eraseP fun e => e.hashcode = hash

theorem inBucket_withoutHash (hash : UInt32) (size : ℕ) (entries : List (THashElement β)) :
    inBucket size (bucketOf hash size) (withoutHash hash entries) =
      withoutHash hash (inBucket size (bucketOf hash size) entries) := by
  have hsame : (fun e : THashElement β => decide (e.hashcode = hash) &&
      decide (bucketOf e.hashcode size = bucketOf hash size)) =
        fun e => decide (e.hashcode = hash) := by
    funext e
    by_cases he : e.hashcode = hash
    · simp [he]
    · simp [he]
  rw [withoutHash, withoutHash, inBucket, inBucket, List.eraseP_filter, hsame]

theorem inBucket_withoutHash_of_ne (hi : i ≠ bucketOf hash size)
    (entries : List (THashElement β)) :
    inBucket size i (withoutHash hash entries) = inBucket size i entries := by
  obtain heq | ⟨e, front, back, -, he, hentries, herase⟩ :=
    List.exists_or_eq_self_of_eraseP (fun e : THashElement β => decide (e.hashcode = hash)) entries
  · rw [withoutHash, heq]
  · rw [withoutHash, herase, hentries, inBucket, inBucket, List.filter_append, List.filter_append,
      List.filter_cons_of_neg]
    rw [decide_eq_true_eq] at he
    rw [he, decide_eq_true_eq]
    exact Ne.symm hi

theorem withoutHash_of_none (h : withHash hash entries = none) :
    withoutHash hash entries = entries :=
  List.eraseP_of_forall_not (List.find?_eq_none.mp h)

theorem withHash_append {f : THashElement β} {xs ys : List (THashElement β)}
    (hxs : ∀ x ∈ xs, x.hashcode ≠ hash) (hf : f.hashcode = hash) :
    withHash hash (xs ++ f :: ys) = some f := by
  have hnone : xs.find? (fun e => e.hashcode = hash) = none :=
    List.find?_eq_none.mpr fun x hx => by simpa using hxs x hx
  rw [withHash, List.find?_append, hnone, List.find?_cons_of_pos (by simpa using hf)]
  rfl

theorem withoutHash_append {f : THashElement β} {xs ys : List (THashElement β)}
    (hxs : ∀ x ∈ xs, x.hashcode ≠ hash) (hf : f.hashcode = hash) :
    withoutHash hash (xs ++ f :: ys) = xs ++ ys := by
  rw [withoutHash, List.eraseP_append_right _ fun x hx => by simpa using hxs x hx,
    List.eraseP_cons_of_pos (by simpa using hf)]

theorem removeFirst_ends (h : Stored m entries place) (hi : i < m.root.table_max_size)
    (hplace : place i = (c, f) :: back)
    (hentries : Rebucketed m.root.table_max_size i entries entries' back) :
    Ends (removeFirst i c ⟨f, first back⟩) m fun x m' => x = f.data ∧
      m'.root.elements_amount = m.root.elements_amount ∧ ∃ place', Stored m' entries' place' := by
  have hchain := h.tiled.chain i
  rw [hplace] at hchain
  have hcell : m.cells.cell c = some ⟨f, first back⟩ :=
    (show Segment m.cells _ ([] ++ (c, f) :: back) none from hchain).cell_eq
  obtain ⟨hsegment, hreshaped⟩ := hchain.pop (m.cells.free c) Heap.cell_free_self
    fun x hx => Heap.cell_free_of_ne hx
  refine Ends.bind_of_ok (setRecord_apply _ m) ?_
  by_cases hback : first back = none
  · rw [if_pos hback]
    refine Ends.bind_of_ok (setRecord_apply _ _) ?_
    refine Ends.bind_of_ok (release_of_cell hcell) ?_
    refine Ends.pure ⟨rfl, rfl, _, h.update hi rfl hsegment (by rw [hplace]; exact hreshaped)
      rfl ?_ hentries.bucket hentries.other hentries.hashed⟩
    rw [hplace, first_eq_none.mp hback]
    simp
  · rw [if_neg hback]
    refine Ends.bind_of_ok (release_of_cell hcell) ?_
    refine Ends.pure ⟨rfl, rfl, _, h.update hi rfl hsegment (by rw [hplace]; exact hreshaped)
      rfl ?_ hentries.bucket hentries.other hentries.hashed⟩
    rw [hplace, if_neg (by simp), if_neg fun hnil => hback (first_eq_none.mpr hnil)]

theorem removeBehind_ends (h : Stored m entries place) (hi : i < m.root.table_max_size)
    (hplace : place i = front ++ (b, e) :: (c, f) :: back) (hstart : first (place i) = some start)
    (hfront : ∀ x ∈ front ++ [(b, e)], x.2.hashcode ≠ hash) (hf : f.hashcode = hash)
    (hrounds : front.length < rounds)
    (hentries : Rebucketed m.root.table_max_size i entries entries' (front ++ (b, e) :: back)) :
    Ends (removeBehind hash rounds start) m fun x m' => x = f.data ∧
      m'.root.elements_amount = m.root.elements_amount ∧ ∃ place', Stored m' entries' place' := by
  have hchain := h.tiled.chain i
  rw [hstart, hplace] at hchain
  have hnodup := hchain.nodup
  have hne : b ≠ c := by
    rintro rfl
    simp [List.nodup_append] at hnodup
  refine Ends.of_ok (removeBehind_of_segment hchain hfront hf hne hrounds)
    ⟨rfl, rfl, Function.update place i (front ++ (b, e) :: back), ?_⟩
  obtain ⟨hsegment, hreshaped⟩ := hchain.remove
    ((m.cells.write b ⟨e, first back⟩).free c) Heap.cell_free_self
    ((Heap.cell_free_of_ne hne).trans Heap.cell_write_self)
    fun x hxc hxb => (Heap.cell_free_of_ne hxc).trans (Heap.cell_write_of_ne hxb)
  have hhead : first (front ++ (b, e) :: back) = some start := by
    rw [← hstart, hplace]
    cases front <;> rfl
  rw [← hhead] at hsegment
  refine h.update hi rfl hsegment (by rw [hplace]; exact hreshaped) ?_ ?_ hentries.bucket
    hentries.other hentries.hashed
  · rw [hhead, ← hstart, h.table, set_map_range, Function.update_eq_self]
  · rw [hplace, if_neg (by simp), if_neg (by simp)]

/-- Without the first element of that hash its bucket has the other ones, and no other bucket
changes. -/
theorem rebucketed_withoutHash (h : Stored m entries place)
    (hi : bucketOf hash m.root.table_max_size = i) (hplace : place i = front ++ (c, f) :: back)
    (hfront : ∀ x ∈ front, x.2.hashcode ≠ hash) (hf : f.hashcode = hash) :
    Rebucketed m.root.table_max_size i entries (withoutHash hash entries) (front ++ back) := by
  have hcontentsFront : ∀ e ∈ contents front, e.hashcode ≠ hash := by
    intro e he
    obtain ⟨x, hx, rfl⟩ := List.mem_map.mp he
    exact hfront x hx
  refine ⟨?_, fun j hj => inBucket_withoutHash_of_ne (hi ▸ hj) entries,
    fun e he => h.hashed e (List.mem_of_mem_eraseP he)⟩
  rw [contents_append front back, ← hi, inBucket_withoutHash, hi, ← h.bucket, hplace,
    contents_append, contents_cons, withoutHash_append hcontentsFront hf]

theorem withHash_of_place (h : Stored m entries place)
    (hi : bucketOf hash m.root.table_max_size = i) (hplace : place i = front ++ (c, f) :: back)
    (hfront : ∀ x ∈ front, x.2.hashcode ≠ hash) (hf : f.hashcode = hash) :
    withHash hash entries = some f := by
  have hcontentsFront : ∀ e ∈ contents front, e.hashcode ≠ hash := by
    intro e he
    obtain ⟨x, hx, rfl⟩ := List.mem_map.mp he
    exact hfront x hx
  rw [← withHash_inBucket hash m.root.table_max_size, hi, ← h.bucket, hplace, contents_append,
    contents_cons, withHash_append hcontentsFront hf]

/-- A bucket that holds something has a first element. -/
theorem Stored.head (h : Stored m entries place) (hne : place i ≠ []) :
    ∃ start d rest, place i = (start, d) :: rest ∧
      m.cells.cell start = some ⟨d, first rest⟩ := by
  obtain ⟨⟨start, d⟩, rest, hplace⟩ := List.exists_cons_of_ne_nil hne
  have hchain := h.tiled.chain i
  rw [hplace] at hchain
  exact ⟨start, d, rest, hplace,
    (show Segment m.cells _ ([] ++ (start, d) :: rest) none from hchain).cell_eq⟩

/-- The first element with the hash of the key is taken out, if there is one. -/
theorem dictionaryRemoveElement_ends (h : Stored m entries place) (key : CString)
    (hrounds : entries.length < rounds) :
    Ends (dictionaryRemoveElement rounds key) m fun x m' =>
      x = (withHash (dictionaryHash key) entries).bind THashElement.data ∧
        m'.root.elements_amount = m.root.elements_amount ∧
          ∃ place', Stored m' (withoutHash (dictionaryHash key) entries) place' := by
  have hi := bucketOf_lt (dictionaryHash key) h.positive
  generalize hhash : dictionaryHash key = hash at hi
  generalize hbucket : bucketOf hash m.root.table_max_size = i at hi
  have hlength := h.length_bucket i
  refine Ends.bind_of_ok (record_apply m) ?_
  dsimp only
  rw [hhash, hbucket]
  refine Ends.bind_of_ok (h.read hi) ?_
  by_cases hmatch : ∃ x ∈ place i, x.2.hashcode = hash
  · obtain ⟨x, hx, hxhash⟩ := hmatch
    obtain ⟨⟨c, f⟩, front, back, hfront, hf, hplace, -⟩ :=
      List.exists_of_eraseP (p := fun x => decide (x.2.hashcode = hash)) hx (by simpa using hxhash)
    simp only [decide_eq_true_eq] at hfront hf
    have hentries := rebucketed_withoutHash h hbucket hplace hfront hf
    rw [withHash_of_place h hbucket hplace hfront hf]
    obtain ⟨start, d, rest, hcons, hcell⟩ := h.head (i := i) (by rw [hplace]; simp)
    have hstart : first (place i) = some start := by
      rw [hcons]
      rfl
    rw [hstart]
    refine Ends.bind_of_ok (deref_of_cell hcell) ?_
    rcases List.eq_nil_or_concat' front with rfl | ⟨front, ⟨b, e⟩, rfl⟩
    · obtain ⟨hhead, rfl⟩ := List.cons.inj (hcons.symm.trans hplace)
      obtain ⟨rfl, rfl⟩ := Prod.mk.inj hhead
      rw [if_pos hf]
      exact removeFirst_ends h hi hplace hentries
    · have hd : d.hashcode ≠ hash := by
        refine hfront (start, d) ?_
        rw [hcons] at hplace
        cases front with
        | nil => exact List.mem_singleton.mpr (List.cons.inj hplace).1
        | cons x front => exact (List.cons.inj hplace).1 ▸ List.mem_cons_self
      rw [if_neg hd]
      rw [List.append_assoc, List.singleton_append] at hplace hentries
      refine removeBehind_ends h hi hplace hstart hfront hf ?_ hentries
      rw [hplace, List.length_append] at hlength
      omega
  · have hnone : withHash hash entries = none := by
      rw [← withHash_inBucket hash m.root.table_max_size, hbucket, ← h.bucket, withHash_contents,
        Option.map_eq_none_iff, List.find?_eq_none]
      intro x hx
      simpa using fun heq => hmatch ⟨x, hx, heq⟩
    rw [hnone, withoutHash_of_none hnone]
    by_cases hne : place i = []
    · rw [hne]
      exact Ends.pure ⟨rfl, rfl, place, h⟩
    · obtain ⟨start, d, rest, hplace, hcell⟩ := h.head hne
      have hchain := h.tiled.chain i
      rw [hplace] at hchain hlength hmatch ⊢
      refine Ends.bind_of_ok (deref_of_cell hcell) ?_
      rw [if_neg fun hd => hmatch ⟨_, List.mem_cons_self, hd⟩]
      exact Ends.of_ok (removeBehind_none hchain (fun x hx hxhash => hmatch ⟨x, hx, hxhash⟩)
        (by omega)) ⟨rfl, rfl, place, h⟩

end Remove

theorem cleanChain_ends {start : Pointer} (h : Segment m.cells start cells none)
    (hrounds : cells.length < rounds) : Ends (cleanChain rounds start) m fun _ m' =>
      m'.root = m.root ∧ Reshaped m.cells m'.cells cells [] := by
  induction cells generalizing m start rounds with
  | nil =>
    obtain ⟨rounds, rfl⟩ := Nat.exists_eq_add_one_of_ne_zero (Nat.ne_zero_of_lt hrounds)
    obtain rfl : start = none := h
    exact Ends.pure ⟨rfl, Reshaped.refl _ _⟩
  | cons cell cells ih =>
    obtain ⟨a, d⟩ := cell
    obtain ⟨rounds, rfl⟩ := Nat.exists_eq_add_one_of_ne_zero (Nat.ne_zero_of_lt hrounds)
    obtain ⟨hsegment, hreshaped⟩ := h.pop (m.cells.free a) Heap.cell_free_self
      fun c hc => Heap.cell_free_of_ne hc
    have hcell : m.cells.cell a = some ⟨d, first cells⟩ :=
      (show Segment m.cells start ([] ++ (a, d) :: cells) none from h).cell_eq
    obtain ⟨rfl, -⟩ := h
    refine Ends.bind_of_ok (deref_of_cell hcell) ?_
    refine Ends.bind_of_ok (release_of_cell hcell) ?_
    refine (ih (by exact hsegment) (by simpa using hrounds)).mono fun _ m' hm' => ?_
    exact ⟨hm'.1, hreshaped.trans hm'.2⟩

/-- The buckets from `index` on are emptied. -/
theorem cleanTable_ends {remaining index : ℕ}
    (htiled : Tiled m.cells (fun i => first (place i)) place)
    (htable : m.root.elements = (List.range size).map fun i => first (place i))
    (hindex : index + remaining = size) (hrounds : ∀ i, (place i).length < rounds) :
    Ends (cleanTable rounds remaining index) m fun _ m' =>
      m'.root.table_max_size = m.root.table_max_size ∧
        ∃ place', Tiled m'.cells (fun i => first (place' i)) place' ∧
          m'.root.elements = (List.range size).map (fun i => first (place' i)) ∧
          ∀ i, place' i = if index ≤ i ∧ i < size then [] else place i := by
  induction remaining generalizing m place index with
  | zero =>
    refine Ends.pure ⟨rfl, place, htiled, htable, fun i => ?_⟩
    rw [if_neg (by omega)]
  | succ remaining ih =>
    have hi : index < size := by omega
    refine Ends.bind_of_ok (record_apply m) ?_
    have hread : readTable m.root.elements index m = .ok (first (place index), m) := by
      rw [htable]
      exact readTable_of_map hi
    refine Ends.bind_of_ok hread ?_
    cases hfirst : first (place index) with
    | none =>
      refine (ih htiled htable (by omega) hrounds).mono fun _ m' hm' => ?_
      obtain ⟨hsize, place', htiled', htable', hplace'⟩ := hm'
      refine ⟨hsize, place', htiled', htable', fun i => ?_⟩
      rw [hplace']
      by_cases hindex : i = index
      · rw [hindex, if_neg (by omega), if_pos (by omega), first_eq_none.mp hfirst]
      · by_cases hrange : index ≤ i ∧ i < size
        · rw [if_pos hrange, if_pos (by omega)]
        · rw [if_neg hrange, if_neg (by omega)]
    | some a =>
      have hchain := htiled.chain index
      rw [hfirst] at hchain
      refine (cleanChain_ends hchain (hrounds index)).bind fun _ m₁ hm₁ => ?_
      obtain ⟨hroot, hreshaped⟩ := hm₁
      refine Ends.bind_of_ok (setRecord_apply _ m₁) ?_
      have hhead : (fun k => first (Function.update place index [] k)) =
          Function.update (fun k => first (place k)) index none := by
        funext k
        by_cases hk : k = index
        · rw [hk, Function.update_self, Function.update_self]
          rfl
        · rw [Function.update_of_ne hk, Function.update_of_ne hk]
      have htiled₁ : Tiled m₁.cells (fun k => first (Function.update place index [] k))
          (Function.update place index []) := by
        rw [hhead]
        exact htiled.update rfl hreshaped
      have htable₁ : m₁.root.elements.set index none =
          (List.range size).map fun k => first (Function.update place index [] k) := by
        rw [hroot, htable, set_map_range, hhead]
      have hrounds₁ : ∀ k, (Function.update place index [] k).length < rounds := by
        intro k
        by_cases hk : k = index
        · rw [hk, Function.update_self]
          exact Nat.lt_of_le_of_lt (Nat.zero_le _) (hrounds index)
        · rw [Function.update_of_ne hk]
          exact hrounds k
      have hnext : index + 1 + remaining = size := by omega
      refine (ih (by exact htiled₁) (by exact htable₁) hnext hrounds₁).mono fun _ m' hm' => ?_
      obtain ⟨hsize, place', htiled', htable', hplace'⟩ := hm'
      refine ⟨hsize.trans (by rw [hroot]), place', htiled', htable', fun i => ?_⟩
      rw [hplace']
      by_cases hindex : i = index
      · rw [hindex, if_neg (by omega), if_pos (by omega), Function.update_self]
      · rw [Function.update_of_ne hindex]
        by_cases hrange : index ≤ i ∧ i < size
        · rw [if_pos hrange, if_pos (by omega)]
        · rw [if_neg hrange, if_neg (by omega)]

theorem dictionaryClean_ends (h : Stored m entries place) (hrounds : entries.length < rounds) :
    Ends (dictionaryClean rounds) m fun _ m' =>
      m'.root.elements_amount = 0 ∧ ∃ place', Stored m' [] place' := by
  refine Ends.bind_of_ok (record_apply m) ?_
  refine (cleanTable_ends h.tiled h.table (Nat.zero_add _) fun i =>
    Nat.lt_of_le_of_lt (h.length_bucket i) hrounds).bind fun _ m₁ hm₁ => ?_
  obtain ⟨hsize, place', htiled, htable, hplace'⟩ := hm₁
  have hempty : ∀ i, place' i = [] := by
    intro i
    rw [hplace']
    split_ifs with hi
    · rfl
    · exact h.outside (by omega)
  refine Ends.of_ok (setRecord_apply _ m₁) ⟨rfl, place', htiled, ?_, fun i => ?_, ?_, ?_,
    List.forall_mem_nil _⟩
  · rw [hsize]
    exact htable
  · rw [hempty]
    rfl
  · rw [hsize]
    exact h.positive
  · simp [used, hempty]

end Dictionary
end Sisop

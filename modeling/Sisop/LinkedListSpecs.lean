import Sisop.LinkedLists

/-!
# What each list operation does

The lists of a memory are laid out when their elements tile the heap and every `t_list` has the
pointer to its first element and their number. Each operation keeps the layout and changes one list
as stated, wherever `malloc` puts new elements.
-/

namespace Sisop
namespace Commons

open Memory

variable {α : Type} {malloc : Malloc α} {m m' : ListMemory α}
  {lists : ℕ → Option (List (ℕ × Option α))} {self : ℕ} {cells cells' : List (ℕ × Option α)}
  {index : ℤ} {data : Option α}

/-- The elements of each list, with their addresses; `none` where there is no list. -/
structure Layout (m : ListMemory α) (lists : ℕ → Option (List (ℕ × Option α))) : Prop where
  tiled : Tiled m.cells (fun l => first ((lists l).getD [])) fun l => (lists l).getD []
  record : ∀ l, m.root.cell l = (lists l).map fun cells => ⟨first cells, cells.length⟩

structure IsList (m : ListMemory α) (l : ℕ) (cells : List (ℕ × Option α)) : Prop where
  record : m.root.cell l = some ⟨first cells, cells.length⟩
  chain : Segment m.cells (first cells) cells none

theorem Layout.isList (h : Layout m lists) (hself : lists self = some cells) :
    IsList m self cells := by
  have hchain := h.tiled.chain self
  simp only [hself, Option.getD_some] at hchain
  refine ⟨?_, hchain⟩
  rw [h.record, hself]
  rfl

/-- One list is reshaped, created or freed. -/
theorem Layout.set (h : Layout m lists) {new : Option (List (ℕ × Option α))}
    (hsegment : Segment m'.cells (first (new.getD [])) (new.getD []) none)
    (hreshaped : Reshaped m.cells m'.cells ((lists self).getD []) (new.getD []))
    (hrecord : m'.root.cell self = new.map fun cells => ⟨first cells, cells.length⟩)
    (hother : ∀ l, l ≠ self → m'.root.cell l = m.root.cell l) :
    Layout m' (Function.update lists self new) := by
  have hplace : (fun l => ((Function.update lists self new) l).getD []) =
      Function.update (fun l => (lists l).getD []) self (new.getD []) := by
    funext l
    by_cases hl : l = self
    · simp [hl]
    · simp [hl]
  have hhead : (fun l => first (((Function.update lists self new) l).getD [])) =
      Function.update (fun l => first ((lists l).getD [])) self (first (new.getD [])) := by
    funext l
    by_cases hl : l = self
    · simp [hl]
    · simp [hl]
  refine ⟨?_, fun l => ?_⟩
  · rw [hplace, hhead]
    exact h.tiled.update hsegment hreshaped
  · by_cases hl : l = self
    · rw [hl, Function.update_self, hrecord]
    · rw [Function.update_of_ne hl, hother l hl, h.record]

theorem Layout.update (h : Layout m lists) (hself : lists self = some cells)
    (hsegment : Segment m'.cells (first cells') cells' none)
    (hreshaped : Reshaped m.cells m'.cells cells cells')
    (hrecord : m'.root.cell self = some ⟨first cells', cells'.length⟩)
    (hother : ∀ l, l ≠ self → m'.root.cell l = m.root.cell l) :
    Layout m' (Function.update lists self (some cells')) := by
  refine h.set hsegment ?_ hrecord hother
  rw [hself]
  exact hreshaped

def Becomes (lists : ℕ → Option (List (ℕ × Option α))) (self : ℕ) (m : ListMemory α)
    (xs : List (Option α)) : Prop :=
  ∃ cells, Layout m (Function.update lists self (some cells)) ∧ contents cells = xs

theorem Layout.unchanged (h : Layout m lists) (hself : lists self = some cells) :
    Becomes lists self m (contents cells) := by
  refine ⟨cells, ?_, rfl⟩
  rw [← hself, Function.update_eq_self]
  exact h

theorem listAt_of_record {r : TList} (h : m.root.cell self = some r) :
    listAt self m = .ok (r, m) := step_of_some (by rw [h]; rfl)

theorem setList_of_record {r : TList} (h : m.root.cell self = some r) (f : TList → TList) :
    setList self f m = .ok ((), { m with root := m.root.write self (f r) }) :=
  step_of_some (by rw [h]; rfl)

theorem nextElements_of_segment {start stop : Pointer}
    (h : Segment m.cells start cells stop) : nextElements cells.length start m = .ok (stop, m) := by
  induction cells generalizing start with
  | nil =>
    obtain rfl : start = stop := h
    rfl
  | cons cell cells ih =>
    obtain ⟨rfl, next, hcell, hrest⟩ := h
    rw [List.length_cons, nextElements, bind_of_ok (deref_of_cell hcell)]
    exact ih hrest

/-- The element at an index that the list has, and the null pointer behind the last one. -/
theorem listGetElement_at (h : IsList m self (cells ++ cells')) (hindex : index = cells.length) :
    listGetElement self index m = .ok (first cells', m) := by
  obtain ⟨middle, hfront, hback⟩ := segment_append.mp h.chain
  have hmiddle := hback.start_eq
  subst hmiddle
  rw [listGetElement, bind_of_ok (listAt_of_record h.record), hindex]
  by_cases hnil : cells' = []
  · subst hnil
    rw [if_neg (by simp)]
    rfl
  · have hpos := List.length_pos_iff.mpr hnil
    rw [if_pos (by simp; omega), Int.toNat_natCast]
    exact nextElements_of_segment hfront

theorem listGetElement_outside (h : IsList m self cells)
    (hindex : ¬ (index < cells.length ∧ 0 ≤ index)) :
    listGetElement self index m = .ok (none, m) := by
  rw [listGetElement, bind_of_ok (listAt_of_record h.record), if_neg hindex]
  rfl

/-- Every index is that of an element or of none. -/
theorem split_at (cells : List (ℕ × Option α)) (index : ℤ) :
    (∃ front a d back, cells = front ++ (a, d) :: back ∧ index = front.length) ∨
      ¬ (index < cells.length ∧ 0 ≤ index) := by
  by_cases hindex : index < cells.length ∧ 0 ≤ index
  · left
    obtain ⟨n, rfl⟩ := Int.eq_ofNat_of_zero_le hindex.2
    have hlt : n < cells.length := by omega
    refine ⟨cells.take n, cells[n].1, cells[n].2, cells.drop (n + 1), ?_, ?_⟩
    · rw [Prod.mk.eta, List.getElem_cons_drop, List.take_append_drop]
    · simp
      omega
  · exact .inr hindex

/-- An element that is not linked yet is none of a list's. -/
theorem IsList.allocate {a : ℕ} (h : IsList m self cells) (ha : m.cells.cell a = none)
    (c : Cell (Option α)) : IsList { m with cells := m.cells.write a c } self cells := by
  refine ⟨h.record, h.chain.congr fun b hb => Heap.cell_write_of_ne ?_⟩
  rintro rfl
  exact h.chain.live hb ha

theorem addToCount_of_record {r : TList} (h : m.root.cell self = some r) (n : ℤ) :
    addToCount self n m = .ok ((), { m with
      root := m.root.write self { r with elements_count := r.elements_count + n } }) :=
  setList_of_record h _

theorem linkElement_of_cell {a : ℕ} {c : Cell (Option α)} (h : m.cells.cell a = some c)
    (next : Pointer) : listLinkElement (some a) next m =
      .ok ((), { m with cells := m.cells.write a { c with next } }) := modify_of_cell h _

/-- The new element becomes the only one or is linked behind the last one. -/
theorem listAppend_ends {a : ℕ} (h : IsList m self cells) (ha : m.cells.cell a = none) :
    Ends (listAppend self (some a)) { m with cells := m.cells.write a ⟨data, none⟩ } fun _ m' =>
      Segment m'.cells (first (cells ++ [(a, data)])) (cells ++ [(a, data)]) none ∧
        Reshaped m.cells m'.cells cells (cells ++ [(a, data)]) ∧
        m'.root.cell self = some ⟨first (cells ++ [(a, data)]), cells.length⟩ ∧
        ∀ l, l ≠ self → m'.root.cell l = m.root.cell l := by
  have hlist := h.allocate ha ⟨data, none⟩
  refine Ends.bind_of_ok (listAt_of_record hlist.record) ?_
  rcases List.eq_nil_or_concat' cells with rfl | ⟨front, ⟨b, e⟩, rfl⟩
  · rw [if_pos (by simp)]
    refine Ends.of_ok (setList_of_record hlist.record _) ?_
    obtain ⟨hsegment, hreshaped⟩ := h.chain.push (m.cells.write a ⟨data, none⟩) ha
      Heap.cell_write_self fun c hc => Heap.cell_write_of_ne hc
    refine ⟨hsegment, hreshaped, Heap.cell_write_self, fun l hl => Heap.cell_write_of_ne hl⟩
  · have hb : m.cells.cell b = some ⟨e, none⟩ := h.chain.cell_eq
    have hne : b ≠ a := by
      rintro rfl
      rw [hb] at ha
      cases ha
    have hb' : (m.cells.write a ⟨data, none⟩).cell b = some ⟨e, none⟩ :=
      (Heap.cell_write_of_ne hne).trans hb
    rw [if_neg (by simp; omega)]
    refine Ends.bind_of_ok (listGetElement_at hlist (by simp)) ?_
    refine Ends.of_ok (linkElement_of_cell hb' _) ?_
    obtain ⟨hsegment, hreshaped⟩ := h.chain.insert
      ((m.cells.write a ⟨data, none⟩).write b ⟨e, some a⟩) ha Heap.cell_write_self
      ((Heap.cell_write_of_ne (Ne.symm hne)).trans Heap.cell_write_self)
      fun c hca hcb => (Heap.cell_write_of_ne hcb).trans (Heap.cell_write_of_ne hca)
    rw [List.append_assoc]
    have hfirst : first (front ++ [(b, e)]) = first (front ++ ([(b, e)] ++ [(a, data)])) := by
      cases front <;> rfl
    rw [← hfirst]
    exact ⟨hsegment, hreshaped, h.record, fun _ _ => rfl⟩

/-- The elements already in the list keep their addresses. -/
theorem listAdd_appends (malloc : Malloc α) (data : Option α) (h : Layout m lists)
    (hself : lists self = some cells) :
    Ends (listAdd malloc self data) m fun n m' => n = cells.length ∧
      ∃ a, Layout m' (Function.update lists self (some (cells ++ [(a, data)]))) := by
  have hunused := malloc.element.isUnused m.cells
  refine Ends.bind_of_ok (allocate_apply malloc.element data m) ?_
  refine (listAppend_ends (h.isList hself) hunused).bind fun _ m₁ hlinked => ?_
  obtain ⟨hsegment, hreshaped, hrecord, hother⟩ := hlinked
  refine Ends.bind_of_ok (addToCount_of_record hrecord 1) ?_
  refine Ends.bind_of_ok (listAt_of_record Heap.cell_write_self) ?_
  refine Ends.pure ⟨by simp, _, h.update hself hsegment hreshaped ?_ fun l hl => ?_⟩
  · dsimp only
    rw [Heap.cell_write_self]
    simp
  · exact (Heap.cell_write_of_ne hl).trans (hother l hl)

theorem listAdd_ends (h : Layout m lists) (hself : lists self = some cells) :
    Ends (listAdd malloc self data) m fun n m' => n = cells.length ∧
      Becomes lists self m' (contents cells ++ [data]) := by
  refine (listAdd_appends malloc data h hself).mono fun n m' hm' => ?_
  obtain ⟨hn, a, hlayout⟩ := hm'
  exact ⟨hn, _, hlayout, contents_append ..⟩

def dataAt (index : ℤ) (xs : List (Option α)) : Option α :=
  if 0 ≤ index then (xs[index.toNat]?).join else none

theorem dataAt_length (xs ys : List (Option α)) :
    dataAt (xs.length : ℤ) (xs ++ data :: ys) = data := by
  rw [dataAt, if_pos (by omega), Int.toNat_natCast, List.getElem?_append_right (Nat.le_refl _),
    Nat.sub_self]
  rfl

theorem dataAt_outside {xs : List (Option α)} (h : ¬ (index < xs.length ∧ 0 ≤ index)) :
    dataAt index xs = none := by
  rw [dataAt]
  split_ifs with hpos
  · rw [List.getElem?_eq_none (by omega)]
    rfl
  · rfl

theorem dataOf_of_cell {a : ℕ} {c : Cell (Option α)} (h : m.cells.cell a = some c) :
    dataOf (some a) m = .ok (c.data, m) := by
  rw [dataOf, bind_of_ok (deref_of_cell h)]
  rfl

theorem listGet_of_isList (h : IsList m self cells) (index : ℤ) :
    listGet self index m = .ok (dataAt index (contents cells), m) := by
  obtain ⟨front, a, d, back, rfl, rfl⟩ | hindex := split_at cells index
  · rw [listGet, bind_of_ok (listGetElement_at h rfl), first_cons,
      dataOf_of_cell h.chain.cell_eq, contents_append, contents_cons]
    rw [← length_contents front, dataAt_length]
  · rw [listGet, bind_of_ok (listGetElement_outside h hindex),
      dataAt_outside (by rwa [length_contents])]
    rfl

theorem listReplace_ends (h : Layout m lists) (hself : lists self = some cells) (index : ℤ)
    (data : Option α) : Ends (listReplace self index data) m fun x m' =>
      x = dataAt index (contents cells) ∧ Becomes lists self m'
        (if 0 ≤ index then (contents cells).set index.toNat data else contents cells) := by
  have hlist := h.isList hself
  obtain ⟨front, a, d, back, rfl, rfl⟩ | hindex := split_at cells index
  · refine Ends.bind_of_ok (listGetElement_at hlist rfl) ?_
    have hcell := hlist.chain.cell_eq
    refine Ends.bind_of_ok (deref_of_cell hcell) ?_
    refine Ends.bind_of_ok (modify_of_cell hcell _) ?_
    obtain ⟨hsegment, hreshaped⟩ := hlist.chain.replace
      (m.cells.write a ⟨data, first back⟩) Heap.cell_write_self
      fun c hc => Heap.cell_write_of_ne hc
    have hfirst : first (front ++ (a, d) :: back) = first (front ++ (a, data) :: back) := by
      cases front <;> rfl
    refine Ends.pure ⟨?_, front ++ (a, data) :: back, h.update hself ?_ hreshaped ?_ fun _ _ => rfl,
      ?_⟩
    · rw [contents_append, contents_cons, ← length_contents front, dataAt_length]
    · rw [← hfirst]
      exact hsegment
    · rw [← hfirst]
      simpa using hlist.record
    · simp
  · refine Ends.bind_of_ok (listGetElement_outside hlist hindex) ?_
    refine Ends.pure ⟨(dataAt_outside (by rwa [length_contents])).symm, ?_⟩
    have hsame : (if 0 ≤ index then (contents cells).set index.toNat data else contents cells) =
        contents cells := by
      split_ifs with hpos
      · rw [List.set_eq_of_length_le (by rw [length_contents]; omega)]
      · rfl
    rw [hsame]
    exact h.unchanged hself

theorem contents_listAddInIndex (front back : List (Option α)) :
    Sisop.listAddInIndex (front ++ back) front.length data =
      if back = [] then front else front ++ data :: back := by
  rw [Sisop.listAddInIndex]
  by_cases hback : back = []
  · simp [hback]
  · have hpos := List.length_pos_iff.mpr hback
    rw [if_pos (by rw [List.length_append]; omega), if_neg hback, List.take_left, List.drop_left]

theorem listAddInIndex_ends (h : Layout m lists) (hself : lists self = some cells) (index : ℤ)
    (data : Option α) : Ends (listAddInIndex malloc self index data) m fun _ m' =>
      Becomes lists self m' (if 0 ≤ index then
        Sisop.listAddInIndex (contents cells) index.toNat data else contents cells) := by
  have hlist := h.isList hself
  refine Ends.bind_of_ok (listAt_of_record hlist.record) ?_
  obtain ⟨front, b, e, back, rfl, rfl⟩ | hindex := split_at cells index
  · have hunused := malloc.element.isUnused m.cells
    generalize ha : malloc.element.address m.cells = a at hunused
    have hlist' := hlist.allocate hunused ⟨data, none⟩
    have hresult : (if 0 ≤ (front.length : ℤ) then Sisop.listAddInIndex
        (contents (front ++ (b, e) :: back)) (front.length : ℤ).toNat data
          else contents (front ++ (b, e) :: back)) =
        contents front ++ data :: e :: contents back := by
      rw [if_pos (by omega), Int.toNat_natCast, contents_append, ← length_contents front,
        contents_listAddInIndex, if_neg (by simp), contents_cons]
    rw [hresult, if_pos ⟨by simp, by omega⟩]
    refine Ends.bind_of_ok (allocate_apply malloc.element data m) ?_
    rw [ha]
    rcases List.eq_nil_or_concat' front with rfl | ⟨front, ⟨c, f⟩, rfl⟩
    · rw [if_pos (by simp)]
      refine Ends.bind_of_ok (linkElement_of_cell Heap.cell_write_self _) ?_
      refine Ends.bind_of_ok (setList_of_record (by exact hlist.record) _) ?_
      refine Ends.of_ok (addToCount_of_record Heap.cell_write_self 1) ?_
      obtain ⟨hsegment, hreshaped⟩ := hlist.chain.push
        ((m.cells.write a ⟨data, none⟩).write a ⟨data, some b⟩) hunused
        Heap.cell_write_self
        fun c hc => (Heap.cell_write_of_ne hc).trans (Heap.cell_write_of_ne hc)
      refine ⟨(a, data) :: (b, e) :: back,
        h.update hself hsegment hreshaped ?_ fun l hl => ?_, by simp⟩
      · dsimp only
        rw [Heap.cell_write_self]
        simp
      · exact (Heap.cell_write_of_ne hl).trans (Heap.cell_write_of_ne hl)
    · rw [List.append_assoc, List.singleton_append] at hlist hlist' hself ⊢
      have hc : m.cells.cell c = some ⟨f, some b⟩ := hlist.chain.cell_eq
      have hne : c ≠ a := by
        rintro rfl
        rw [hc] at hunused
        cases hunused
      rw [if_neg (by simp; omega)]
      have hnext : listGetElement self (front ++ [(c, f)]).length
          { m with cells := m.cells.write a ⟨data, none⟩ } = .ok (some b, _) :=
        listGetElement_at (show IsList _ self ((front ++ [(c, f)]) ++ (b, e) :: back) by
          simpa using hlist') rfl
      refine Ends.bind_of_ok hnext ?_
      refine Ends.bind_of_ok (listGetElement_at hlist' (by simp)) ?_
      have hc' : (m.cells.write a ⟨data, none⟩).cell c = some ⟨f, some b⟩ :=
        (Heap.cell_write_of_ne hne).trans hc
      refine Ends.bind_of_ok (linkElement_of_cell hc' _) ?_
      have ha' : ((m.cells.write a ⟨data, none⟩).write c ⟨f, some a⟩).cell a =
          some ⟨data, none⟩ := (Heap.cell_write_of_ne (Ne.symm hne)).trans Heap.cell_write_self
      refine Ends.bind_of_ok (linkElement_of_cell ha' _) ?_
      refine Ends.of_ok (addToCount_of_record (by exact hlist.record) 1) ?_
      obtain ⟨hsegment, hreshaped⟩ := hlist.chain.insert
        (((m.cells.write a ⟨data, none⟩).write c ⟨f, some a⟩).write a ⟨data, some b⟩)
        hunused ((Heap.cell_write_of_ne hne).trans Heap.cell_write_self) Heap.cell_write_self
        fun x hxa hxc => (Heap.cell_write_of_ne hxa).trans
          ((Heap.cell_write_of_ne hxc).trans (Heap.cell_write_of_ne hxa))
      have hfirst : first (front ++ (c, f) :: (b, e) :: back) =
          first (front ++ (c, f) :: (a, data) :: (b, e) :: back) := by
        cases front <;> rfl
      rw [hfirst] at hsegment
      refine ⟨_, h.update hself hsegment hreshaped ?_ fun l hl => ?_, by simp⟩
      · dsimp only
        rw [Heap.cell_write_self, hfirst]
        simp
        omega
      · exact Heap.cell_write_of_ne hl
  · rw [if_neg hindex]
    refine Ends.pure ?_
    have hsame : (if 0 ≤ index then Sisop.listAddInIndex (contents cells) index.toNat data
        else contents cells) = contents cells := by
      split_ifs with hpos
      · rw [Sisop.listAddInIndex, if_neg (by rw [length_contents]; omega)]
      · rfl
    rw [hsame]
    exact h.unchanged hself

theorem findFrom_of_segment {condition : Option α → Bool} {rounds : ℕ} {start : Pointer}
    {position : ℤ} (h : Segment m.cells start cells none)
    (hrounds : (contents cells).findIdx condition < rounds) :
    findFrom condition rounds start position m =
      .ok ((first (cells.drop ((contents cells).findIdx condition)),
        position + (contents cells).findIdx condition), m) := by
  induction cells generalizing rounds start position with
  | nil =>
    obtain rfl : start = none := h
    obtain ⟨rounds, rfl⟩ := Nat.exists_eq_add_of_lt hrounds
    simp [findFrom]
  | cons cell cells ih =>
    obtain ⟨a, d⟩ := cell
    obtain ⟨rfl, next, hcell, hrest⟩ := h
    obtain ⟨rounds, rfl⟩ := Nat.exists_eq_add_one_of_ne_zero (Nat.ne_zero_of_lt hrounds)
    rw [findFrom, bind_of_ok (deref_of_cell hcell)]
    rw [contents_cons, List.findIdx_cons] at hrounds ⊢
    dsimp only
    cases hcondition : condition d with
    | true => simp
    | false =>
      rw [hcondition] at hrounds
      simp only [cond_false, Nat.add_lt_add_iff_right] at hrounds ⊢
      rw [if_neg Bool.false_ne_true, ih hrest hrounds, List.drop_succ_cons]
      push_cast
      rw [add_assoc, add_comm (1 : ℤ)]

theorem listFindElement_of_isList {condition : Option α → Bool} {rounds : ℕ}
    (h : IsList m self cells) (hrounds : (contents cells).findIdx condition < rounds) :
    listFindElement rounds self condition m =
      .ok ((first (cells.drop ((contents cells).findIdx condition)),
        ((contents cells).findIdx condition : ℤ)), m) := by
  rw [listFindElement, bind_of_ok (listAt_of_record h.record),
    findFrom_of_segment h.chain hrounds, zero_add]

theorem first_drop_cases (cells : List (ℕ × Option α)) (n : ℕ) :
    (∃ front a d back, cells = front ++ (a, d) :: back ∧ n = front.length ∧
      first (cells.drop n) = some a) ∨ (cells.length ≤ n ∧ first (cells.drop n) = none) := by
  obtain ⟨front, a, d, back, rfl, hn⟩ | hindex := split_at cells n
  · left
    obtain rfl : n = front.length := by omega
    exact ⟨front, a, d, back, rfl, rfl, by rw [List.drop_left]; rfl⟩
  · right
    refine ⟨by omega, ?_⟩
    rw [List.drop_of_length_le (by omega)]
    rfl

/-- The data of the first element that satisfies the condition, null when there is none. -/
theorem listFind_of_isList {condition : Option α → Bool} {rounds : ℕ} (h : IsList m self cells)
    (hrounds : (contents cells).findIdx condition < rounds) :
    listFind rounds self condition m =
      .ok (dataAt ((contents cells).findIdx condition) (contents cells), m) := by
  rw [listFind, bind_of_ok (listFindElement_of_isList h hrounds)]
  obtain ⟨front, a, d, back, hcells, hn, hfirst⟩ | ⟨hle, hfirst⟩ :=
    first_drop_cases cells ((contents cells).findIdx condition)
  · rw [hfirst, hn, dataOf_of_cell (hcells ▸ h.chain).cell_eq, hcells, contents_append,
      contents_cons, ← length_contents front, dataAt_length]
  · rw [hfirst, dataAt_outside (by rw [length_contents]; omega)]
    rfl

theorem listFindIndex_of_isList {condition : Option α → Bool} {rounds : ℕ}
    (h : IsList m self cells) (hrounds : (contents cells).findIdx condition < rounds) :
    listFindIndex rounds self condition m = .ok (((contents cells).findIdx condition : ℤ), m) := by
  rw [listFindIndex, bind_of_ok (listFindElement_of_isList h hrounds)]
  rfl

theorem listSize_of_isList (h : IsList m self cells) :
    listSize self m = .ok ((contents cells).length, m) := by
  rw [listSize, bind_of_ok (listAt_of_record h.record), length_contents]
  rfl

theorem listIsEmpty_of_isList (h : IsList m self cells) :
    listIsEmpty self m = .ok ((contents cells).isEmpty, m) := by
  rw [listIsEmpty, bind_of_ok (listSize_of_isList h), pure_apply]
  cases contents cells with
  | nil => rfl
  | cons d xs =>
    have hne : ((d :: xs).length : ℤ) ≠ 0 := by simp; omega
    rw [beq_eq_false_iff_ne.mpr hne]
    rfl

/-- The element in front is linked to what follows the removed one. -/
theorem listUnlink_ends {front back : List (ℕ × Option α)} {a : ℕ} {d : Option α}
    (h : IsList m self (front ++ (a, d) :: back)) :
    Ends (listUnlink self front.length (first back)) m fun _ m' =>
      m'.cells.cell a = m.cells.cell a ∧
      Segment (m'.cells.free a) (first (front ++ back)) (front ++ back) none ∧
      Reshaped m.cells (m'.cells.free a) (front ++ (a, d) :: back) (front ++ back) ∧
      m'.root.cell self = some ⟨first (front ++ back), (front ++ (a, d) :: back).length⟩ ∧
      ∀ l, l ≠ self → m'.root.cell l = m.root.cell l := by
  rcases List.eq_nil_or_concat' front with rfl | ⟨front, ⟨b, e⟩, rfl⟩
  · rw [listUnlink, if_pos (by simp)]
    refine Ends.of_ok (setList_of_record h.record _) ?_
    obtain ⟨hsegment, hreshaped⟩ := h.chain.pop (m.cells.free a) Heap.cell_free_self
      fun c hc => Heap.cell_free_of_ne hc
    exact ⟨rfl, hsegment, hreshaped, Heap.cell_write_self, fun l hl => Heap.cell_write_of_ne hl⟩
  · rw [List.append_assoc, List.singleton_append] at h ⊢
    rw [listUnlink, if_neg (by simp; omega)]
    have hb : m.cells.cell b = some ⟨e, some a⟩ := h.chain.cell_eq
    have hne : a ≠ b := by
      have hnodup := h.chain.nodup
      rintro rfl
      simp [List.nodup_append] at hnodup
    refine Ends.bind_of_ok (listGetElement_at h (by simp)) ?_
    refine Ends.of_ok (linkElement_of_cell hb _) ?_
    obtain ⟨hsegment, hreshaped⟩ := h.chain.remove
      ((m.cells.write b ⟨e, first back⟩).free a) Heap.cell_free_self
      ((Heap.cell_free_of_ne (Ne.symm hne)).trans Heap.cell_write_self)
      fun c hca hcb => (Heap.cell_free_of_ne hca).trans (Heap.cell_write_of_ne hcb)
    have hfirst : first (front ++ (b, e) :: (a, d) :: back) = first (front ++ (b, e) :: back) := by
      cases front <;> rfl
    rw [List.append_assoc, List.singleton_append, ← hfirst]
    exact ⟨Heap.cell_write_of_ne hne, hsegment, hreshaped, h.record, fun _ _ => rfl⟩

theorem listRemove_ends (h : Layout m lists) (hself : lists self = some cells)
    (hindex : index < cells.length ∧ 0 ≤ index) :
    Ends (listRemove self index) m fun x m' => x = dataAt index (contents cells) ∧
      Becomes lists self m' ((contents cells).eraseIdx index.toNat) := by
  have hlist := h.isList hself
  obtain ⟨front, a, d, back, rfl, rfl⟩ | hnot := split_at cells index
  · refine Ends.bind_of_ok (listAt_of_record hlist.record) ?_
    rw [if_neg (by simp)]
    refine Ends.bind_of_ok (listGetElement_at hlist rfl) ?_
    refine Ends.bind_of_ok (deref_of_cell hlist.chain.cell_eq) ?_
    refine (listUnlink_ends hlist).bind fun _ m₁ hunlinked => ?_
    obtain ⟨hcell, hsegment, hreshaped, hrecord, hother⟩ := hunlinked
    refine Ends.bind_of_ok (addToCount_of_record hrecord (-1)) ?_
    refine Ends.bind_of_ok (release_of_cell (hcell.trans hlist.chain.cell_eq)) ?_
    refine Ends.pure ⟨?_, front ++ back, h.update hself hsegment hreshaped ?_ fun l hl => ?_, ?_⟩
    · rw [contents_append, contents_cons, ← length_contents front, dataAt_length]
    · dsimp only
      rw [Heap.cell_write_self]
      simp
      omega
    · exact (Heap.cell_write_of_ne hl).trans (hother l hl)
    · rw [Int.toNat_natCast, contents_append, contents_append, contents_cons,
        List.eraseIdx_append_of_length_le (by simp)]
      simp
  · exact absurd hindex hnot

theorem listRemove_nil (h : IsList m self []) (index : ℤ) :
    listRemove self index m = .ok (none, m) := by
  rw [listRemove, bind_of_ok (listAt_of_record h.record), if_pos (by simp)]
  rfl

/-- A list with elements is not asked whether it has one at the index. -/
theorem listRemove_outside (h : IsList m self cells) (hcells : cells ≠ [])
    (hindex : ¬ (index < cells.length ∧ 0 ≤ index)) :
    listRemove self index m = .error .fault := by
  obtain ⟨cell, rest, rfl⟩ := List.exists_cons_of_ne_nil hcells
  rw [listRemove, bind_of_ok (listAt_of_record h.record), if_neg (by simp),
    bind_of_ok (listGetElement_outside h hindex), bind_of_error deref_null]

theorem listCreate_ends (h : Layout m lists) : Ends (listCreate malloc) m fun l m' =>
    lists l = none ∧ Layout m' (Function.update lists l (some [])) := by
  have hunused := malloc.list.isUnused m.root
  have hnone : lists (malloc.list.address m.root) = none := by
    rw [h.record] at hunused
    exact Option.map_eq_none_iff.mp hunused
  refine Ends.of_ok (step_of_some rfl) ⟨hnone, h.set rfl ?_ Heap.cell_write_self fun l hl => ?_⟩
  · rw [hnone]
    exact Reshaped.refl m.cells []
  · exact Heap.cell_write_of_ne hl

theorem listRemoveByCondition_ends {condition : Option α → Bool} {rounds : ℕ}
    (h : Layout m lists) (hself : lists self = some cells)
    (hrounds : (contents cells).findIdx condition < rounds) :
    Ends (listRemoveByCondition rounds self condition) m fun x m' =>
      x = dataAt ((contents cells).findIdx condition) (contents cells) ∧
        Becomes lists self m' ((contents cells).eraseIdx ((contents cells).findIdx condition)) := by
  have hlist := h.isList hself
  refine Ends.bind_of_ok (listFindElement_of_isList hlist hrounds) ?_
  obtain ⟨front, a, d, back, hcells, hn, hfirst⟩ | ⟨hle, hfirst⟩ :=
    first_drop_cases cells ((contents cells).findIdx condition)
  · rw [hfirst]
    have hlength : front.length < cells.length := by simp [hcells]
    refine (listRemove_ends h hself ⟨by omega, by omega⟩).mono fun x m' hx => ?_
    simpa only [Int.toNat_natCast] using hx
  · rw [hfirst]
    refine Ends.pure ⟨(dataAt_outside (by rw [length_contents]; omega)).symm, ?_⟩
    rw [List.eraseIdx_of_length_le (by rw [length_contents]; exact hle)]
    exact h.unchanged hself

/-- The elements are freed one by one; the count is not looked at. -/
theorem cleanFrom_ends {rounds : ℕ} {n : ℤ} (hrecord : m.root.cell self = some ⟨first cells, n⟩)
    (hchain : Segment m.cells (first cells) cells none) (hrounds : cells.length < rounds) :
    Ends (cleanFrom self rounds) m fun _ m' => Reshaped m.cells m'.cells cells [] ∧
      m'.root.cell self = some ⟨none, n⟩ ∧ ∀ l, l ≠ self → m'.root.cell l = m.root.cell l := by
  induction cells generalizing m rounds with
  | nil =>
    obtain ⟨rounds, rfl⟩ := Nat.exists_eq_add_one_of_ne_zero (Nat.ne_zero_of_lt hrounds)
    refine Ends.bind_of_ok (listAt_of_record hrecord) ?_
    exact Ends.pure ⟨Reshaped.refl m.cells [], hrecord, fun _ _ => rfl⟩
  | cons cell cells ih =>
    obtain ⟨a, d⟩ := cell
    obtain ⟨rounds, rfl⟩ := Nat.exists_eq_add_one_of_ne_zero (Nat.ne_zero_of_lt hrounds)
    have hcell : m.cells.cell a = some ⟨d, first cells⟩ :=
      (show Segment m.cells _ ([] ++ (a, d) :: cells) none from hchain).cell_eq
    obtain ⟨hsegment, hreshaped⟩ := hchain.pop (m.cells.free a) Heap.cell_free_self
      fun c hc => Heap.cell_free_of_ne hc
    refine Ends.bind_of_ok (listAt_of_record hrecord) ?_
    refine Ends.bind_of_ok (deref_of_cell hcell) ?_
    refine Ends.bind_of_ok (setList_of_record hrecord _) ?_
    refine Ends.bind_of_ok (release_of_cell hcell) ?_
    refine (ih (by exact Heap.cell_write_self) hsegment (by simpa using hrounds)).mono
      fun _ m' hm' => ?_
    obtain ⟨hcleaned, hrecord', hother⟩ := hm'
    exact ⟨hreshaped.trans hcleaned, hrecord',
      fun l hl => (hother l hl).trans (Heap.cell_write_of_ne hl)⟩

theorem listClean_ends {rounds : ℕ} (h : Layout m lists) (hself : lists self = some cells)
    (hrounds : cells.length < rounds) :
    Ends (listClean rounds self) m fun _ m' => Becomes lists self m' [] := by
  have hlist := h.isList hself
  refine (cleanFrom_ends hlist.record hlist.chain hrounds).bind fun _ m₁ hm₁ => ?_
  obtain ⟨hreshaped, hrecord, hother⟩ := hm₁
  refine Ends.of_ok (setList_of_record hrecord _) ⟨[], ?_, rfl⟩
  exact h.update hself rfl hreshaped Heap.cell_write_self
    fun l hl => (Heap.cell_write_of_ne hl).trans (hother l hl)

theorem listDestroy_ends {rounds : ℕ} (h : Layout m lists) (hself : lists self = some cells)
    (hrounds : cells.length < rounds) : Ends (listDestroy rounds self) m fun _ m' =>
      Layout m' (Function.update lists self none) := by
  refine (listClean_ends h hself hrounds).bind fun _ m₁ hm₁ => ?_
  obtain ⟨cells₁, hlayout, hnil⟩ := hm₁
  obtain rfl : cells₁ = [] := List.map_eq_nil_iff.mp hnil
  have hrecord := (hlayout.isList (Function.update_self ..)).record
  refine Ends.of_ok (step_of_some (by rw [hrecord]; rfl)) ?_
  have hidem : Function.update (Function.update lists self (some [])) self none =
      Function.update lists self none := Function.update_idem ..
  rw [← hidem]
  refine hlayout.set rfl ?_ Heap.cell_free_self fun l hl => Heap.cell_free_of_ne hl
  rw [Function.update_self]
  exact Reshaped.refl _ []

section Closures

variable {target : ℕ} {closure : Option α → Program (ListMemory α) Unit}
  {effect : List (Option α) → Option α → List (Option α)}

def ActsOn (target : ℕ) (closure : Option α → Program (ListMemory α) Unit)
    (effect : List (Option α) → Option α → List (Option α)) : Prop :=
  ∀ m lists cells d, Layout m lists → lists target = some cells →
    Ends (closure d) m fun _ m' => Becomes lists target m' (effect (contents cells) d)

/-- The elements still to be visited are where they were, whatever the closure does to the other
list. -/
theorem iterateFrom_ends {rounds : ℕ} {front back cells₀ : List (ℕ × Option α)}
    (hclosure : ActsOn target closure effect) (hne : target ≠ self) (h : Layout m lists)
    (hself : lists self = some (front ++ back)) (htarget : lists target = some cells₀)
    (hrounds : back.length < rounds) :
    Ends (iterateFrom closure rounds (first back)) m fun _ m' =>
      Becomes lists target m' ((contents back).foldl effect (contents cells₀)) := by
  induction back generalizing m lists front cells₀ rounds with
  | nil =>
    obtain ⟨rounds, rfl⟩ := Nat.exists_eq_add_one_of_ne_zero (Nat.ne_zero_of_lt hrounds)
    exact Ends.pure (h.unchanged htarget)
  | cons cell back ih =>
    obtain ⟨a, d⟩ := cell
    obtain ⟨rounds, rfl⟩ := Nat.exists_eq_add_one_of_ne_zero (Nat.ne_zero_of_lt hrounds)
    refine Ends.bind_of_ok (deref_of_cell (h.isList hself).chain.cell_eq) ?_
    refine (hclosure m lists cells₀ d h htarget).bind fun _ m₁ hm₁ => ?_
    obtain ⟨cells₁, hlayout, hcontents⟩ := hm₁
    have hself₁ : Function.update lists target (some cells₁) self =
        some (front ++ (a, d) :: back) :=
      (Function.update_of_ne (Ne.symm hne) ..).trans hself
    refine Ends.bind_of_ok (deref_of_cell (hlayout.isList hself₁).chain.cell_eq) ?_
    have hself₂ : Function.update lists target (some cells₁) self =
        some ((front ++ [(a, d)]) ++ back) := by simpa using hself₁
    have hrest := ih hlayout hself₂ (Function.update_self ..) (by simpa using hrounds)
    refine hrest.mono fun _ m' hm' => ?_
    obtain ⟨cells', hlayout', hcontents'⟩ := hm'
    rw [Function.update_idem] at hlayout'
    refine ⟨cells', hlayout', ?_⟩
    rw [hcontents', hcontents]
    rfl

theorem listIterate_ends {rounds : ℕ} {cells₀ : List (ℕ × Option α)}
    (hclosure : ActsOn target closure effect) (hne : target ≠ self) (h : Layout m lists)
    (hself : lists self = some cells) (htarget : lists target = some cells₀)
    (hrounds : cells.length < rounds) :
    Ends (listIterate rounds self closure) m fun _ m' =>
      Becomes lists target m' ((contents cells).foldl effect (contents cells₀)) := by
  refine Ends.bind_of_ok (listAt_of_record (h.isList hself).record) ?_
  exact iterateFrom_ends hclosure hne h (show lists self = some ([] ++ cells) from hself) htarget
    hrounds

theorem addInList_ends (h : Layout m lists) (hself : lists self = some cells) (d : Option α) :
    Ends (addInList malloc self d) m fun _ m' => Becomes lists self m' (contents cells ++ [d]) :=
  (listAdd_ends h hself).bind fun _ _ hm' => Ends.pure hm'.2

theorem actsOn_add : ActsOn target (addInList malloc target) fun xs d => xs ++ [d] :=
  fun _ _ _ d h htarget => addInList_ends h htarget d

theorem actsOn_filter (malloc : Malloc α) (condition : Option α → Bool) : ActsOn target
    (fun d => if condition d then addInList malloc target d else pure ())
    fun xs d => if condition d then xs ++ [d] else xs := by
  intro m lists cells d h htarget
  dsimp only
  split_ifs
  · exact addInList_ends h htarget d
  · exact Ends.pure (h.unchanged htarget)

theorem actsOn_map (malloc : Malloc α) (transformer : Option α → Option α) : ActsOn target
    (fun d => addInList malloc target (transformer d)) fun xs d => xs ++ [transformer d] :=
  fun _ _ _ d h htarget => addInList_ends h htarget (transformer d)

theorem foldl_add (xs ys : List (Option α)) : ys.foldl (fun xs d => xs ++ [d]) xs = xs ++ ys := by
  induction ys generalizing xs with
  | nil => simp
  | cons d ys ih => simp [ih]

theorem foldl_filter (condition : Option α → Bool) (xs ys : List (Option α)) :
    ys.foldl (fun xs d => if condition d then xs ++ [d] else xs) xs =
      xs ++ ys.filter condition := by
  induction ys generalizing xs with
  | nil => simp
  | cons d ys ih =>
    rw [List.foldl_cons, ih, List.filter_cons]
    split_ifs <;> simp

theorem foldl_map (transformer : Option α → Option α) (xs ys : List (Option α)) :
    ys.foldl (fun xs d => xs ++ [transformer d]) xs = xs ++ ys.map transformer := by
  induction ys generalizing xs with
  | nil => simp
  | cons d ys ih => simp [ih]

theorem listAddAll_ends {rounds other : ℕ} {cells₀ : List (ℕ × Option α)} (hne : self ≠ other)
    (h : Layout m lists) (hself : lists self = some cells₀) (hother : lists other = some cells)
    (hrounds : cells.length < rounds) :
    Ends (listAddAll malloc rounds self other) m fun _ m' =>
      Becomes lists self m' (contents cells₀ ++ contents cells) := by
  rw [← foldl_add]
  exact listIterate_ends actsOn_add hne h hother hself hrounds

/-- A list that is added to itself grows with every element visited: its end is never reached. -/
theorem iterateFrom_endless {rounds a : ℕ} {front back : List (ℕ × Option α)} {d : Option α}
    (h : Layout m lists) (hself : lists self = some (front ++ (a, d) :: back)) :
    iterateFrom (addInList malloc self) rounds (some a) m = .error .running := by
  induction rounds generalizing m lists front back a d with
  | zero => rfl
  | succ rounds ih =>
    rw [iterateFrom, bind_of_ok (deref_of_cell (h.isList hself).chain.cell_eq)]
    obtain ⟨n, m₁, hadd, -, b, hlayout⟩ := listAdd_appends malloc d h hself
    have hadd' : addInList malloc self d m = .ok ((), m₁) := by
      rw [addInList, bind_of_ok hadd]
      rfl
    have hself₁ := Function.update_self self (some (front ++ (a, d) :: back ++ [(b, d)])) lists
    rw [List.append_assoc, List.cons_append] at hself₁ hlayout
    rw [bind_of_ok hadd', bind_of_ok (deref_of_cell (hlayout.isList hself₁).chain.cell_eq)]
    obtain ⟨⟨c, e⟩, rest, hrest⟩ := List.exists_cons_of_ne_nil
      (show back ++ [(b, d)] ≠ [] by simp)
    rw [hrest] at hself₁ hlayout ⊢
    rw [List.append_cons front (a, d)] at hself₁ hlayout
    exact ih hlayout hself₁

theorem listAddAll_endless {rounds : ℕ} (h : Layout m lists) (hself : lists self = some cells)
    (hcells : cells ≠ []) : listAddAll malloc rounds self self m = .error .running := by
  obtain ⟨⟨a, d⟩, back, rfl⟩ := List.exists_cons_of_ne_nil hcells
  rw [listAddAll, listIterate, bind_of_ok (listAt_of_record (h.isList hself).record)]
  exact iterateFrom_endless h (show lists self = some ([] ++ (a, d) :: back) from hself)

/-- Adding an empty list to itself does nothing. -/
theorem listAddAll_nil {rounds : ℕ} (h : Layout m lists) (hself : lists self = some []) :
    listAddAll malloc (rounds + 1) self self m = .ok ((), m) := by
  rw [listAddAll, listIterate, bind_of_ok (listAt_of_record (h.isList hself).record)]
  rfl

/-- A new list is filled from another one. -/
theorem created_ends {fill : ℕ → Program (ListMemory α) Unit} {xs : List (Option α)}
    (h : Layout m lists) (hself : lists self = some cells)
    (hfill : ∀ l m₁, l ≠ self → Layout m₁ (Function.update lists l (some [])) →
      Ends (fill l) m₁ fun _ m' => Becomes (Function.update lists l (some [])) l m' xs) :
    Ends (do
      let l ← listCreate malloc
      fill l
      return l) m fun l m' => lists l = none ∧ Becomes lists l m' xs := by
  refine (listCreate_ends h).bind fun l m₁ hl => ?_
  obtain ⟨hnone, hlayout⟩ := hl
  have hne : l ≠ self := by
    rintro rfl
    rw [hnone] at hself
    cases hself
  refine (hfill l m₁ hne hlayout).bind fun _ m' hm' => Ends.pure ⟨hnone, ?_⟩
  obtain ⟨cells', hlayout', hcontents⟩ := hm'
  rw [Function.update_idem] at hlayout'
  exact ⟨cells', hlayout', hcontents⟩

theorem listFilter_ends {rounds : ℕ} (condition : Option α → Bool) (h : Layout m lists)
    (hself : lists self = some cells) (hrounds : cells.length < rounds) :
    Ends (listFilter malloc rounds self condition) m fun l m' =>
      lists l = none ∧ Becomes lists l m' ((contents cells).filter condition) := by
  refine created_ends h hself fun l m₁ hne hlayout => ?_
  have hiterate := listIterate_ends (actsOn_filter malloc condition) hne hlayout
    ((Function.update_of_ne (Ne.symm hne) ..).trans hself) (Function.update_self ..) hrounds
  rwa [foldl_filter] at hiterate

theorem listMap_ends {rounds : ℕ} (transformer : Option α → Option α) (h : Layout m lists)
    (hself : lists self = some cells) (hrounds : cells.length < rounds) :
    Ends (listMap malloc rounds self transformer) m fun l m' =>
      lists l = none ∧ Becomes lists l m' ((contents cells).map transformer) := by
  refine created_ends h hself fun l m₁ hne hlayout => ?_
  have hiterate := listIterate_ends (actsOn_map malloc transformer) hne hlayout
    ((Function.update_of_ne (Ne.symm hne) ..).trans hself) (Function.update_self ..) hrounds
  rwa [foldl_map] at hiterate

end Closures

section Take

variable {sublist remaining : ℕ} {cells₀ : List (ℕ × Option α)}

/-- The first element is removed, if there is one. -/
theorem listRemove_first (h : Layout m lists) (hself : lists self = some cells) :
    Ends (listRemove self 0) m fun x m' => x = (contents cells).head?.join ∧
      Becomes lists self m' (contents cells).tail := by
  rcases cells with _ | ⟨⟨a, d⟩, cells⟩
  · exact Ends.of_ok (listRemove_nil (h.isList hself) 0) ⟨rfl, h.unchanged hself⟩
  · exact listRemove_ends h hself ⟨by simp, le_refl 0⟩

theorem dataAt_succ (d : Option α) (xs : List (Option α)) (k : ℕ) :
    dataAt ((k + 1 : ℕ) : ℤ) (d :: xs) = dataAt (k : ℤ) xs := by
  rw [dataAt, dataAt, if_pos (by omega), if_pos (by omega), Int.toNat_natCast, Int.toNat_natCast,
    List.getElem?_cons_succ]

theorem takeD_eq_map (n : ℕ) (xs : List (Option α)) :
    xs.takeD n none = (List.range n).map fun k : ℕ => dataAt (k : ℤ) xs := by
  induction n generalizing xs with
  | zero => rfl
  | succ n ih =>
    rw [List.range_succ_eq_map, List.map_cons, List.map_map, List.takeD, ih]
    cases xs with
    | nil => simp [dataAt, Function.comp_def]
    | cons d xs =>
      refine congrArg₂ List.cons rfl (List.map_congr_left fun k _ => ?_)
      exact (dataAt_succ d xs k).symm

theorem takeFrom_ends {i : ℤ} (hne : sublist ≠ self) (h : Layout m lists)
    (hself : lists self = some cells) (hsublist : lists sublist = some cells₀) :
    Ends (takeFrom malloc self sublist remaining i) m fun _ m' => Becomes lists sublist m'
      (contents cells₀ ++
        (List.range remaining).map fun k : ℕ => dataAt (i + (k : ℤ)) (contents cells)) := by
  induction remaining generalizing m lists cells₀ i with
  | zero => exact Ends.pure (by simpa using h.unchanged hsublist)
  | succ remaining ih =>
    refine Ends.bind_of_ok (listGet_of_isList (h.isList hself) i) ?_
    refine (addInList_ends h hsublist _).bind fun _ m₁ hm₁ => ?_
    obtain ⟨cells₁, hlayout, hcontents⟩ := hm₁
    refine (ih (i := i + 1) hlayout ((Function.update_of_ne (Ne.symm hne) ..).trans hself)
      (Function.update_self ..)).mono fun _ m' hm' => ?_
    obtain ⟨cells', hlayout', hcontents'⟩ := hm'
    rw [Function.update_idem] at hlayout'
    refine ⟨cells', hlayout', ?_⟩
    rw [hcontents', hcontents, List.range_succ_eq_map, List.map_cons, List.map_map,
      List.append_assoc]
    simp [Function.comp_def, add_assoc, add_comm (1 : ℤ)]

theorem listTake_ends (count : ℤ) (h : Layout m lists) (hself : lists self = some cells) :
    Ends (listTake malloc self count) m fun l m' =>
      lists l = none ∧ Becomes lists l m' ((contents cells).takeD count.toNat none) := by
  refine created_ends h hself fun l m₁ hne hlayout => ?_
  refine (takeFrom_ends hne hlayout ((Function.update_of_ne (Ne.symm hne) ..).trans hself)
    (Function.update_self ..)).mono fun _ m' hm' => ?_
  rw [takeD_eq_map]
  simpa using hm'

/-- The first elements move from one list to the other. -/
theorem takeAndRemoveFrom_ends (hne : sublist ≠ self) (h : Layout m lists)
    (hself : lists self = some cells) (hsublist : lists sublist = some cells₀) :
    Ends (takeAndRemoveFrom malloc self sublist remaining) m fun _ m' =>
      ∃ cells' cells₁, Layout m' (Function.update (Function.update lists self (some cells')) sublist
        (some cells₁)) ∧ contents cells' = (contents cells).drop remaining ∧
        contents cells₁ = contents cells₀ ++ (contents cells).takeD remaining none := by
  induction remaining generalizing m lists cells cells₀ with
  | zero =>
    refine Ends.pure ⟨cells, cells₀, ?_, rfl, by simp⟩
    rw [← hself, Function.update_eq_self, ← hsublist, Function.update_eq_self]
    exact h
  | succ remaining ih =>
    refine (listRemove_first h hself).bind fun x m₁ hm₁ => ?_
    obtain ⟨rfl, cells', hlayout, hcontents⟩ := hm₁
    refine (addInList_ends hlayout ((Function.update_of_ne hne ..).trans hsublist) _).bind
      fun _ m₂ hm₂ => ?_
    obtain ⟨cells₁, hlayout₂, hcontents₂⟩ := hm₂
    refine (ih hlayout₂ ((Function.update_of_ne (Ne.symm hne) ..).trans (Function.update_self ..))
      (Function.update_self ..)).mono fun _ m' hm' => ?_
    obtain ⟨cells'', cells₃, hlayout₃, hcontents', hcontents₃⟩ := hm'
    refine ⟨cells'', cells₃, ?_, ?_, ?_⟩
    · rw [Function.update_comm hne, Function.update_idem, Function.update_idem] at hlayout₃
      exact hlayout₃
    · rw [hcontents', hcontents, List.drop_tail]
    · rw [hcontents₃, hcontents₂, hcontents, List.append_assoc]
      cases contents cells <;> rfl

theorem listTakeAndRemove_ends (count : ℤ) (h : Layout m lists) (hself : lists self = some cells) :
    Ends (listTakeAndRemove malloc self count) m fun l m' => lists l = none ∧
      ∃ cells' cells₁, Layout m' (Function.update (Function.update lists self (some cells')) l
        (some cells₁)) ∧ contents cells' = (contents cells).drop count.toNat ∧
        contents cells₁ = (contents cells).takeD count.toNat none := by
  refine (listCreate_ends h).bind fun l m₁ hl => ?_
  obtain ⟨hnone, hlayout⟩ := hl
  have hne : l ≠ self := by
    rintro rfl
    rw [hnone] at hself
    cases hself
  refine (takeAndRemoveFrom_ends hne hlayout ((Function.update_of_ne (Ne.symm hne) ..).trans hself)
    (Function.update_self ..)).bind fun _ m' hm' => Ends.pure ⟨hnone, ?_⟩
  obtain ⟨cells', cells₁, hlayout', hcontents', hcontents₁⟩ := hm'
  rw [Function.update_comm hne, Function.update_idem] at hlayout'
  exact ⟨cells', cells₁, hlayout', hcontents', hcontents₁⟩

end Take

end Commons
end Sisop

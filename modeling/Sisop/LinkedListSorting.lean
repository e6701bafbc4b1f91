import Sisop.LinkedListRuns
import Sisop.ReadySorting

/-!
# The re-sorting, cell by cell

`orderInsertPrioList` and `orderInsertSPNList` on the linked lists that `prioList` and `LPL` really
are. They do what the model of the processes says they do to plain lists, and lose no element.
-/

namespace Sisop
namespace OrderInsert

open Commons

variable {α : Type} (malloc : Malloc α) (greater : α → α → Bool) (prioList : ℕ)

/-- `LPL` is emptied into `prioList`; `permits` is the value of `LPL_empty`. -/
def drainLoop (ready : ℕ) : (rounds permits : ℕ) → Program (ListMemory α) ℕ
  | 0, permits => pure permits
  | rounds + 1, permits => do
    let psImg2 ← queuePop ready
    Commons.listAddInIndex malloc prioList 0 psImg2
    -- behind a `sem_trywait` that failed the loop is left, but its body has been run
    if permits = 0 then pure 0 else drainLoop ready rounds (permits - 1)

def exceeds (psImg1 psImg2 : Option α) : Program (ListMemory α) Bool :=
  match psImg1, psImg2 with
  | some p, some p' => pure (greater p p')
  | _, _ => .stop .fault

def exchangeAt (ilimit : ℤ) (i : ℕ) : Program (ListMemory α) Unit :=
  if ilimit - i = 1 then do
    let psImg1 ← listRemove prioList i
    addInList malloc prioList psImg1
  else do
    let psImg1 ← listRemove prioList i
    Commons.listAddInIndex malloc prioList (i + 1) psImg1

def passLoop (ilimit : ℤ) : (rounds i : ℕ) → Bool → Program (ListMemory α) Bool
  | 0, _, flag => pure flag
  | rounds + 1, i, flag => do
    let psImg1 ← listGet prioList i
    let psImg2 ← listGet prioList (i + 1)
    let exchanged ← exceeds greater psImg1 psImg2
    if exchanged then do
      exchangeAt malloc prioList ilimit i
      passLoop ilimit rounds (i + 1) false
    else passLoop ilimit rounds (i + 1) flag

def sortLoop (ilimit : ℤ) : (rounds : ℕ) → Program (ListMemory α) Unit
  | 0 => .stop .running
  | rounds + 1 => do
    let flag ← passLoop malloc greater prioList ilimit ilimit.toNat 0 true
    if flag then pure () else sortLoop ilimit rounds

def fillLoop (ready : ℕ) : (rounds permits : ℕ) → Program (ListMemory α) ℕ
  | 0, permits => pure permits
  | rounds + 1, permits => do
    let psImg2 ← listRemove prioList 0
    queuePush malloc ready psImg2
    fillLoop ready rounds (permits + 1)

/-- The whole call, between the two operations on `LPL_mutex`; the result is `LPL_empty`. -/
def orderInsertCells (ready rounds permits : ℕ) : Program (ListMemory α) ℕ := do
  let readySize ← queueSize ready
  let permits ← drainLoop malloc prioList ready readySize.toNat permits
  let size ← listSize prioList
  sortLoop malloc greater prioList (size - 1) rounds
  let size ← listSize prioList
  fillLoop malloc prioList ready size.toNat permits

section Cells

variable {malloc greater prioList} {m m' : ListMemory α} {s : Sequences α} {ready permits : ℕ}
  {images arrivals list : List α}

def Shaped (m : ListMemory α) (s : Sequences α) : Prop :=
  ∃ lists, Layout m lists ∧ sequences lists = s

theorem shaped_of_becomes {lists : ℕ → Option (List (ℕ × Option α))} {l : ℕ}
    {xs : List (Option α)} (h : Becomes lists l m xs) :
    Shaped m (Function.update (sequences lists) l (some xs)) := by
  obtain ⟨cells, hlayout, rfl⟩ := h
  exact ⟨_, hlayout, sequences_update l (some cells)⟩

namespace Shaped

variable {l : ℕ} {xs : List (Option α)}

theorem get (h : Shaped m s) (hl : s l = some xs) (index : ℤ) :
    listGet l index m = .ok (dataAt index xs, m) := by
  obtain ⟨lists, hlayout, rfl⟩ := h
  obtain ⟨cells, hcells, rfl⟩ := Option.map_eq_some_iff.mp hl
  exact listGet_of_isList (hlayout.isList hcells) index

theorem size (h : Shaped m s) (hl : s l = some xs) : listSize l m = .ok (xs.length, m) := by
  obtain ⟨lists, hlayout, rfl⟩ := h
  obtain ⟨cells, hcells, rfl⟩ := Option.map_eq_some_iff.mp hl
  exact listSize_of_isList (hlayout.isList hcells)

theorem remove (h : Shaped m s) (hl : s l = some xs) {i : ℕ} (hi : i < xs.length) :
    Ends (listRemove l i) m fun x m' =>
      x = xs[i] ∧ Shaped m' (Function.update s l (some (xs.eraseIdx i))) := by
  obtain ⟨lists, hlayout, rfl⟩ := h
  obtain ⟨cells, hcells, rfl⟩ := Option.map_eq_some_iff.mp hl
  rw [length_contents] at hi
  refine (listRemove_ends hlayout hcells ⟨by omega, by omega⟩).mono fun x m' hx => ?_
  refine ⟨hx.1.trans ?_, shaped_of_becomes hx.2⟩
  rw [dataAt, if_pos (by omega), Int.toNat_natCast, List.getElem?_eq_getElem]
  rfl

theorem add (malloc : Malloc α) (data : Option α) (h : Shaped m s) (hl : s l = some xs) :
    Ends (addInList malloc l data) m fun _ m' =>
      Shaped m' (Function.update s l (some (xs ++ [data]))) := by
  obtain ⟨lists, hlayout, rfl⟩ := h
  obtain ⟨cells, hcells, rfl⟩ := Option.map_eq_some_iff.mp hl
  exact (addInList_ends hlayout hcells data).mono fun _ _ hm' => shaped_of_becomes hm'

theorem addInIndex (malloc : Malloc α) (data : Option α) (h : Shaped m s) (hl : s l = some xs)
    (i : ℕ) : Ends (Commons.listAddInIndex malloc l i data) m fun _ m' =>
      Shaped m' (Function.update s l (some (listAddInIndex xs i data))) := by
  obtain ⟨lists, hlayout, rfl⟩ := h
  obtain ⟨cells, hcells, rfl⟩ := Option.map_eq_some_iff.mp hl
  refine (listAddInIndex_ends hlayout hcells i data).mono fun _ _ hm' => ?_
  rw [if_pos (by omega), Int.toNat_natCast] at hm'
  exact shaped_of_becomes hm'

end Shaped

theorem listAddInIndex_map (xs : List α) (i : ℕ) (x : α) :
    listAddInIndex (xs.map some) i (some x) = (listAddInIndex xs i x).map some := by
  rw [listAddInIndex, listAddInIndex, List.length_map]
  split_ifs
  · rw [List.map_append, List.map_cons, List.map_take, List.map_drop]
  · rfl

/-- `exchangeAt` is `bubbleExchange`. -/
theorem exchangeAt_ends {ilimit i : ℕ} (h : Shaped m s) (hlist : s prioList = some (list.map some))
    (hlimit : i < ilimit) (hi : i < list.length) :
    Ends (exchangeAt malloc prioList ilimit i) m fun _ m' => Shaped m'
      (Function.update s prioList (some ((bubbleExchange list ilimit i).map some))) := by
  have hget : list[i]? = some list[i] := List.getElem?_eq_getElem hi
  have hremove := h.remove hlist (by rwa [List.length_map])
  rw [exchangeAt, bubbleExchange, hget]
  dsimp only
  by_cases hlast : ilimit - i = 1
  · rw [if_pos (by omega), if_pos hlast]
    refine hremove.bind fun x m₁ hx => ?_
    obtain ⟨rfl, hshaped⟩ := hx
    refine (hshaped.add malloc _ (Function.update_self ..)).mono fun _ m' hm' => ?_
    rw [Function.update_idem, List.getElem_map, List.eraseIdx_map] at hm'
    rw [List.map_append]
    exact hm'
  · rw [if_neg (by omega), if_neg hlast]
    refine hremove.bind fun x m₁ hx => ?_
    obtain ⟨rfl, hshaped⟩ := hx
    refine (hshaped.addInIndex malloc _ (Function.update_self ..) (i + 1)).mono fun _ m' hm' => ?_
    rw [Function.update_idem, List.getElem_map, List.eraseIdx_map, listAddInIndex_map] at hm'
    exact hm'

theorem dataAt_map {i : ℕ} (hi : i < list.length) :
    dataAt (i : ℤ) (list.map some) = some list[i] := by
  rw [dataAt, if_pos (by omega), Int.toNat_natCast, List.getElem?_map,
    List.getElem?_eq_getElem hi]
  rfl

/-- `passLoop` is `bubblePass`. -/
theorem passLoop_ends {ilimit rounds i : ℕ} {flag : Bool} (h : Shaped m s)
    (hlist : s prioList = some (list.map some)) (hlength : ilimit + 1 ≤ list.length)
    (hi : i + rounds ≤ ilimit) :
    Ends (passLoop malloc greater prioList ilimit rounds i flag) m fun flag' m' =>
      flag' = (bubblePass greater (bubbleExchange · ilimit) rounds i list flag).2 ∧
        Shaped m' (Function.update s prioList (some ((bubblePass greater (bubbleExchange · ilimit)
          rounds i list flag).1.map some))) := by
  induction rounds generalizing m s i list flag with
  | zero =>
    refine Ends.pure ⟨rfl, ?_⟩
    change Shaped m (Function.update s prioList (some (list.map some)))
    rw [← hlist, Function.update_eq_self]
    exact h
  | succ rounds ih =>
    have hlt : i < list.length := by omega
    have hlt' : i + 1 < list.length := by omega
    have hget : (list[i]?.bind fun psImg1 => list[i + 1]?.map (greater psImg1)) =
        some (greater list[i] list[i + 1]) := by
      rw [List.getElem?_eq_getElem hlt, List.getElem?_eq_getElem hlt']
      rfl
    rw [bubblePass, hget, Option.getD_some]
    have hsecond := h.get hlist (i + 1 : ℕ)
    rw [dataAt_map hlt'] at hsecond
    have hfirst := h.get hlist i
    rw [dataAt_map hlt] at hfirst
    refine Ends.bind_of_ok hfirst ?_
    refine Ends.bind_of_ok hsecond ?_
    refine Ends.bind_of_ok (pure_apply (greater list[i] list[i + 1]) m) ?_
    split_ifs with hgreater
    · refine (exchangeAt_ends h hlist (by omega) hlt).bind fun _ m₁ hshaped => ?_
      have hperm := bubbleExchange_perm list hlength (i := i) (by omega)
      refine (ih hshaped (Function.update_self ..) (hperm.length_eq ▸ hlength) (by omega)).mono
        fun flag' m' hm' => ?_
      rwa [Function.update_idem] at hm'
    · exact ih h hlist hlength (by omega)

/-- With enough rounds the loop ends in what `while (!flag)` ends in. -/
theorem sortLoop_ends {ilimit : ℕ} {sorted : List α} (h : Shaped m s)
    (hlist : s prioList = some (list.map some)) (hlength : ilimit + 1 ≤ list.length)
    (hloops : LoopsTo (fun l => bubblePass greater (bubbleExchange · ilimit) ilimit 0 l true)
      list sorted) :
    ∃ enough, ∀ rounds, enough ≤ rounds → Ends (sortLoop malloc greater prioList ilimit rounds) m
      fun _ m' => Shaped m' (Function.update s prioList (some (sorted.map some))) := by
  induction hloops generalizing m s with
  | @stop list sorted hbody =>
    refine ⟨1, fun rounds hrounds => ?_⟩
    obtain ⟨rounds, rfl⟩ := Nat.exists_eq_add_one_of_ne_zero (Nat.ne_zero_of_lt hrounds)
    rw [sortLoop, Int.toNat_natCast]
    refine (passLoop_ends h hlist hlength (by omega)).bind fun flag m₁ hm₁ => ?_
    rw [hbody] at hm₁
    obtain ⟨rfl, hshaped⟩ := hm₁
    exact Ends.pure hshaped
  | @again list list' sorted hbody hloops ih =>
    have hperm := bubblePass_perm greater (fun list i => bubbleExchange_perm list) ilimit 0 list
      true hlength (by omega)
    rw [hbody] at hperm
    -- the rounds that are left depend on the memory behind the pass
    have hends : Ends (passLoop malloc greater prioList ilimit ilimit 0 true) m _ :=
      passLoop_ends h hlist hlength (Nat.zero_add ilimit).le
    rw [hbody] at hends
    obtain ⟨flag, m₁, hpass, hm₁⟩ := hends
    obtain ⟨rfl, hshaped⟩ := hm₁
    obtain ⟨enough, hends⟩ := ih hshaped (Function.update_self ..) (hperm.length_eq ▸ hlength)
    refine ⟨enough + 1, fun rounds hrounds => ?_⟩
    obtain ⟨rounds, rfl⟩ := Nat.exists_eq_add_one_of_ne_zero (Nat.ne_zero_of_lt hrounds)
    rw [sortLoop, Int.toNat_natCast]
    refine Ends.bind_of_ok hpass ?_
    refine (hends rounds (by omega)).mono fun _ m' hm' => ?_
    rwa [Function.update_idem] at hm'

/-- What the draining loop leaves: a `sem_trywait` that fails still lets one element through. -/
theorem drainLoop_ends (hne : prioList ≠ ready) (h : Shaped m s)
    (hlist : s prioList = some (arrivals.map some)) (hready : s ready = some (images.map some)) :
    Ends (drainLoop malloc prioList ready images.length permits) m fun permits' m' =>
      permits' = permits - images.length ∧ Shaped m' (Function.update
        (Function.update s ready (some ((images.drop (permits + 1)).map some))) prioList
          (some (((images.take (permits + 1)).foldl (fun l p => listAddInIndex l 0 p)
            arrivals).map some))) := by
  induction images generalizing m s permits arrivals with
  | nil =>
    refine Ends.pure ⟨rfl, ?_⟩
    rw [List.drop_nil, List.take_nil, ← hready, Function.update_eq_self, List.foldl_nil, ← hlist,
      Function.update_eq_self]
    exact h
  | cons p images ih =>
    refine (h.remove (i := 0) hready (by simp)).bind fun x m₁ hx => ?_
    obtain ⟨rfl, hshaped⟩ := hx
    refine (hshaped.addInIndex malloc (some p)
      ((Function.update_of_ne hne ..).trans hlist) 0).bind fun _ m₂ hshaped₂ => ?_
    rw [listAddInIndex_map] at hshaped₂
    have hready₂ : Function.update (Function.update s ready (some (images.map some))) prioList
        (some ((listAddInIndex arrivals 0 p).map some)) ready = some (images.map some) :=
      (Function.update_of_ne (Ne.symm hne) ..).trans (Function.update_self ..)
    cases permits with
    | zero =>
      refine Ends.pure ⟨by simp, ?_⟩
      simpa using hshaped₂
    | succ permits =>
      rw [if_neg (Nat.succ_ne_zero permits)]
      refine (ih hshaped₂ (Function.update_self ..) hready₂).mono fun permits' m' hm' => ?_
      rw [Function.update_comm hne, Function.update_idem, Function.update_idem] at hm'
      refine ⟨by simpa using hm'.1, ?_⟩
      simpa using hm'.2

theorem fillLoop_ends (hne : prioList ≠ ready) (h : Shaped m s)
    (hlist : s prioList = some (list.map some)) (hready : s ready = some (images.map some)) :
    Ends (fillLoop malloc prioList ready list.length permits) m fun permits' m' =>
      permits' = permits + list.length ∧ Shaped m' (Function.update
        (Function.update s prioList (some [])) ready (some ((images ++ list).map some))) := by
  induction list generalizing m s permits images with
  | nil =>
    refine Ends.pure ⟨rfl, ?_⟩
    rw [List.append_nil, ← hready, ← List.map_nil, ← hlist, Function.update_eq_self,
      Function.update_eq_self]
    exact h
  | cons p list ih =>
    refine (h.remove (i := 0) hlist (by simp)).bind fun x m₁ hx => ?_
    obtain ⟨rfl, hshaped⟩ := hx
    refine (hshaped.add malloc (some p)
      ((Function.update_of_ne (Ne.symm hne) ..).trans hready)).bind fun _ m₂ hshaped₂ => ?_
    have happend : images.map some ++ [some p] = (images ++ [p]).map some := by simp
    rw [happend] at hshaped₂
    refine (ih hshaped₂ ((Function.update_of_ne hne ..).trans (Function.update_self ..))
      (Function.update_self ..)).mono fun permits' m' hm' => ?_
    rw [Function.update_comm (Ne.symm hne), Function.update_idem, Function.update_idem,
      List.append_assoc] at hm'
    refine ⟨?_, hm'.2⟩
    rw [hm'.1, List.length_cons]
    omega

/-- The two lists behind a call, in terms of the plain ones. -/
theorem orderInsertCells_ends (malloc : Malloc α)
    (hasymm : ∀ a b, greater a b = true → greater b a = false)
    (htrans : ∀ a b c, greater a b = false → greater b c = false → greater a c = false)
    (hne : prioList ≠ ready) (h : Shaped m s) (hlist : s prioList = some (arrivals.map some))
    (hready : s ready = some (images.map some)) (hpermits : images.length ≤ permits) :
    ∃ enough, ∀ rounds, enough ≤ rounds →
      Ends (orderInsertCells malloc greater prioList ready rounds permits) m fun permits' m' =>
        permits' = permits - images.length + (images.foldl (fun l p => listAddInIndex l 0 p)
          arrivals).length ∧
        Shaped m' (Function.update (Function.update s prioList (some [])) ready
          (some ((bubbleSort greater (images.foldl (fun l p => listAddInIndex l 0 p)
            arrivals)).map some))) := by
  have hdrain : Ends (drainLoop malloc prioList ready images.length permits) m _ :=
    drainLoop_ends hne h hlist hready
  rw [List.take_of_length_le (by omega), List.drop_of_length_le (by omega)] at hdrain
  obtain ⟨permits₁, m₁, hdrained, rfl, hm₁⟩ := hdrain
  generalize images.foldl (fun l p => listAddInIndex l 0 p) arrivals = drained at hm₁ ⊢
  have hlist₁ : Function.update (Function.update s ready (some (([] : List α).map some))) prioList
      (some (drained.map some)) prioList = some (drained.map some) := Function.update_self ..
  have hsize := hm₁.size hlist₁
  have hsort : ∃ enough, ∀ rounds, enough ≤ rounds →
      Ends (sortLoop malloc greater prioList ((drained.map some).length - 1) rounds) m₁ fun _ m₂ =>
        Shaped m₂ (Function.update (Function.update s ready (some (([] : List α).map some)))
          prioList (some ((bubbleSort greater drained).map some))) := by
    have hloops := loopsTo_bubbleSort hasymm htrans drained
    rcases List.eq_nil_or_concat drained with hnil | ⟨_, _, hconcat⟩
    · -- the limit is negative, and the inner loop has no round
      subst hnil
      refine ⟨1, fun rounds hrounds => ?_⟩
      obtain ⟨rounds, rfl⟩ := Nat.exists_eq_add_one_of_ne_zero (Nat.ne_zero_of_lt hrounds)
      exact Ends.bind_of_ok (pure_apply true m₁) (Ends.pure hm₁)
    · have hpos : 0 < drained.length := by simp [hconcat]
      have hlimit : ((drained.map some).length : ℤ) - 1 = (drained.length - 1 : ℕ) := by
        rw [List.length_map]
        omega
      obtain ⟨enough, hends⟩ : ∃ enough, ∀ rounds, enough ≤ rounds →
          Ends (sortLoop malloc greater prioList (drained.length - 1 : ℕ) rounds) m₁ _ :=
        sortLoop_ends hm₁ hlist₁ (by omega) hloops
      refine ⟨enough, fun rounds hrounds => ?_⟩
      rw [hlimit]
      refine (hends rounds hrounds).mono fun _ m₂ hm₂ => ?_
      rwa [Function.update_idem] at hm₂
  obtain ⟨enough, hends⟩ := hsort
  refine ⟨enough, fun rounds hrounds => ?_⟩
  refine Ends.bind_of_ok (h.size hready) ?_
  rw [Int.toNat_natCast, List.length_map]
  refine Ends.bind_of_ok hdrained ?_
  refine Ends.bind_of_ok hsize ?_
  refine (hends rounds hrounds).bind fun _ m₂ hm₂ => ?_
  refine Ends.bind_of_ok (hm₂.size (Function.update_self ..)) ?_
  rw [Int.toNat_natCast, List.length_map]
  refine (fillLoop_ends hne hm₂ (Function.update_self ..)
    ((Function.update_of_ne (Ne.symm hne) ..).trans (Function.update_self ..))).mono
      fun permits' m' hm' => ?_
  rw [(bubbleSort_perm greater drained).length_eq, List.nil_append, Function.update_idem,
    Function.update_comm (Ne.symm hne), Function.update_idem] at hm'
  exact hm'

/-- Any list can be built. -/
theorem Shaped.exists_list (malloc : Malloc α) (h : Shaped m s) (xs : List (Option α)) :
    ∃ l m', s l = none ∧ Shaped m' (Function.update s l (some xs)) := by
  induction xs using List.reverseRecOn with
  | nil =>
    obtain ⟨lists, hlayout, rfl⟩ := h
    have hcreate : Ends (listCreate malloc) m _ := listCreate_ends hlayout
    obtain ⟨l, m', -, hnone, hcreated⟩ := hcreate
    refine ⟨l, m', by rw [sequences, hnone]; rfl, _, hcreated, ?_⟩
    rw [sequences_update]
    rfl
  | append_singleton xs data ih =>
    obtain ⟨l, m₁, hnone, hshaped⟩ := ih
    obtain ⟨-, m', -, hm'⟩ := hshaped.add malloc data (Function.update_self ..)
    rw [Function.update_idem] at hm'
    exact ⟨l, m', hnone, hm'⟩

end Cells

/-- The call over linked cells leaves in `LPL` and its semaphore what the call of the process model
leaves there, and every element is in a list. -/
theorem resort_refined (cfg : Config) (s : Shared) (key : SortKey) (arrivals : List Ptr)
    (caller : SortCaller) (malloc : Malloc Ptr) {m : ListMemory Ptr} {lists : Sequences Ptr}
    {prioList ready : ℕ} (howner : s.owner .lpl = none)
    (hsem : s.sem .lplEmpty = (s.queue .lpl).length) (hne : prioList ≠ ready)
    (h : Shaped m lists) (hlist : lists prioList = some (arrivals.map some))
    (hready : lists ready = some ((s.queue .lpl).map some)) :
    ∃ s', (PP.machine cfg).ReturnsTo (tid caller) .go (returned caller) s
        ⟨.sortStart key arrivals caller, [.lock .lpl]⟩ s' ∧
      ∃ enough, ∀ rounds, enough ≤ rounds →
        Ends (orderInsertCells malloc (key.greater s.image) prioList ready rounds
          (s.sem .lplEmpty)) m fun permits' m' => permits' = s'.sem .lplEmpty ∧
            Shaped m' (Function.update (Function.update lists prioList (some [])) ready
              (some ((s'.queue .lpl).map some))) := by
  refine ⟨_, returnsTo_orderInsert howner hsem, ?_⟩
  obtain ⟨enough, hends⟩ := orderInsertCells_ends malloc (key.greater_asymm s.image)
    (key.greater_trans s.image) hne h hlist hready hsem.ge
  refine ⟨enough, fun rounds hrounds => (hends rounds hrounds).mono fun permits' m' hm' => ?_⟩
  obtain ⟨hpermits, hshaped⟩ := hm'
  rw [Shared.withReady_sem, Shared.withReady_queue]
  refine ⟨?_, hshaped⟩
  rw [hpermits, hsem, Nat.sub_self, Nat.zero_add, (bubbleSort_perm _ _).length_eq]
  rfl

theorem resort_refined_three : ∃ (m : ListMemory Ptr) (prioList ready : ℕ) (s' : Shared),
    (PP.machine PP.smallConfig).ReturnsTo (tid .sts) .go (returned .sts)
        (readyState (fun p => Int32.ofNat p) [1, 3])
        ⟨.sortStart .priority [2] .sts, [.lock .lpl]⟩ s' ∧
      ∃ rounds, Ends (orderInsertCells (Malloc.top Ptr)
        (SortKey.priority.greater (readyState (fun p => Int32.ofNat p) [1, 3]).image) prioList ready
          rounds 2) m fun permits' _ => permits' = s'.sem .lplEmpty := by
  obtain ⟨prioList, m₁, -, hm₁⟩ := Shaped.exists_list (Malloc.top Ptr)
    ⟨_, layout_noLists, rfl⟩ [some 2]
  obtain ⟨ready, m, hnone, hm⟩ := hm₁.exists_list (Malloc.top Ptr) [some 1, some 3]
  have hne : prioList ≠ ready := by
    rintro rfl
    rw [Function.update_self] at hnone
    cases hnone
  obtain ⟨s', hreturns, enough, hends⟩ := resort_refined PP.smallConfig
    (readyState (fun p => Int32.ofNat p) [1, 3]) .priority [2] .sts (Malloc.top Ptr) rfl
    (by decide) hne hm ((Function.update_of_ne hne ..).trans (Function.update_self ..))
    (Function.update_self ..)
  exact ⟨m, prioList, ready, s', hreturns, enough,
    (hends enough (Nat.le_refl _)).mono fun _ _ hm' => hm'.1⟩

end OrderInsert
end Sisop

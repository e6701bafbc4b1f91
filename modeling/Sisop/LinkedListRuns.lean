import Sisop.LinkedListSpecs

/-!
# Runs of list operations

A program uses its lists through their handles, in any order, and `malloc` puts elements and lists
where it likes. What the operations return is what they would on plain sequences of data, the other
lists are as they were, and no element is ever lost. The queues of the library are lists of which
only the two ends are used.
-/

namespace Sisop
namespace Commons

open Memory

variable {α : Type}

inductive ListOp (α : Type) where
  | create
  | add (self : ℕ) (data : Option α)
  | addAll (self other : ℕ)
  | get (self : ℕ) (index : ℤ)
  | addInIndex (self : ℕ) (index : ℤ) (data : Option α)
  | replace (self : ℕ) (index : ℤ) (data : Option α)
  | find (self : ℕ) (condition : Option α → Bool)
  | findIndex (self : ℕ) (condition : Option α → Bool)
  | remove (self : ℕ) (index : ℤ)
  | removeByCondition (self : ℕ) (condition : Option α → Bool)
  | size (self : ℕ)
  | isEmpty (self : ℕ)
  | take (self : ℕ) (count : ℤ)
  | takeAndRemove (self : ℕ) (count : ℤ)
  | filter (self : ℕ) (condition : Option α → Bool)
  | map (self : ℕ) (transformer : Option α → Option α)
  | clean (self : ℕ)
  | destroy (self : ℕ)

inductive ListResult (α : Type) where
  | nothing
  | data (x : Option α)
  | number (n : ℤ)
  | truth (b : Bool)
  | list (l : ℕ)
  deriving DecidableEq, Repr

def exec (malloc : Malloc α) (rounds : ℕ) : ListOp α → Program (ListMemory α) (ListResult α)
  | .create => (listCreate malloc).giving .list
  | .add self data => (listAdd malloc self data).giving .number
  | .addAll self other => (listAddAll malloc rounds self other).giving fun _ => .nothing
  | .get self index => (listGet self index).giving .data
  | .addInIndex self index data =>
    (listAddInIndex malloc self index data).giving fun _ => .nothing
  | .replace self index data => (listReplace self index data).giving .data
  | .find self condition => (listFind rounds self condition).giving .data
  | .findIndex self condition => (listFindIndex rounds self condition).giving .number
  | .remove self index => (listRemove self index).giving .data
  | .removeByCondition self condition => (listRemoveByCondition rounds self condition).giving .data
  | .size self => (listSize self).giving .number
  | .isEmpty self => (listIsEmpty self).giving .truth
  | .take self count => (listTake malloc self count).giving .list
  | .takeAndRemove self count => (listTakeAndRemove malloc self count).giving .list
  | .filter self condition => (listFilter malloc rounds self condition).giving .list
  | .map self transformer => (listMap malloc rounds self transformer).giving .list
  | .clean self => (listClean rounds self).giving fun _ => .nothing
  | .destroy self => (listDestroy rounds self).giving fun _ => .nothing

def Returns (malloc : Malloc α) (op : ListOp α) (m : ListMemory α) (r : ListResult α)
    (m' : ListMemory α) : Prop :=
  ∃ rounds, exec malloc rounds op m = .ok (r, m')

def ListOp.handles : ListOp α → List ℕ
  | .create => []
  | .addAll self other => [self, other]
  | .add self _ | .get self _ | .addInIndex self _ _ | .replace self _ _ | .find self _
  | .findIndex self _ | .remove self _ | .removeByCondition self _ | .size self | .isEmpty self
  | .take self _ | .takeAndRemove self _ | .filter self _ | .map self _ | .clean self
  | .destroy self => [self]

abbrev Sequences (α : Type) := ℕ → Option (List (Option α))

/-- What an operation returns and leaves behind on plain sequences, and `none` where it has no
meaning; `l` is where a new list is put. -/
def ListOp.effect (l : ℕ) (s : Sequences α) : ListOp α → Option (ListResult α × Sequences α)
  | .create => some (.list l, Function.update s l (some []))
  | .add self data => (s self).map fun xs =>
    (.number xs.length, Function.update s self (some (xs ++ [data])))
  | .addAll self other => (s self).bind fun xs => (s other).bind fun ys =>
    if self = other ∧ ys ≠ [] then none
    else some (.nothing, Function.update s self (some (xs ++ ys)))
  | .get self index => (s self).map fun xs => (.data (dataAt index xs), s)
  | .addInIndex self index data => (s self).map fun xs => (.nothing, Function.update s self
    (some (if 0 ≤ index then Sisop.listAddInIndex xs index.toNat data else xs)))
  | .replace self index data => (s self).map fun xs => (.data (dataAt index xs),
    Function.update s self (some (if 0 ≤ index then xs.set index.toNat data else xs)))
  | .find self condition => (s self).map fun xs => (.data (dataAt (xs.findIdx condition) xs), s)
  | .findIndex self condition => (s self).map fun xs => (.number (xs.findIdx condition), s)
  | .remove self index => (s self).bind fun xs =>
    if xs = [] then some (.data none, s)
    else if index < xs.length ∧ 0 ≤ index then
      some (.data (dataAt index xs), Function.update s self (some (xs.eraseIdx index.toNat)))
    else none
  | .removeByCondition self condition => (s self).map fun xs =>
    (.data (dataAt (xs.findIdx condition) xs),
      Function.update s self (some (xs.eraseIdx (xs.findIdx condition))))
  | .size self => (s self).map fun xs => (.number xs.length, s)
  | .isEmpty self => (s self).map fun xs => (.truth xs.isEmpty, s)
  | .take self count => (s self).map fun xs =>
    (.list l, Function.update s l (some (xs.takeD count.toNat none)))
  | .takeAndRemove self count => (s self).map fun xs => (.list l,
    Function.update (Function.update s self (some (xs.drop count.toNat))) l
      (some (xs.takeD count.toNat none)))
  | .filter self condition => (s self).map fun xs =>
    (.list l, Function.update s l (some (xs.filter condition)))
  | .map self transformer => (s self).map fun xs =>
    (.list l, Function.update s l (some (xs.map transformer)))
  | .clean self => (s self).map fun _ => (.nothing, Function.update s self (some []))
  | .destroy self => (s self).map fun _ => (.nothing, Function.update s self none)

section Stable

/-! More rounds do not change what an operation returns. -/

theorem stable_findFrom (condition : Option α → Bool) (start : Pointer) (position : ℤ) :
    Stable fun rounds => findFrom condition rounds start position := by
  intro rounds
  induction rounds generalizing start position with
  | zero =>
    intro m r h
    cases h
  | succ rounds ih =>
    intro m r h
    cases start with
    | none => exact h
    | some a =>
      obtain ⟨c, m₁, hderef, hrest⟩ := bind_eq_ok h
      refine (bind_of_ok hderef).trans ?_
      split_ifs at hrest ⊢
      · exact hrest
      · exact ih _ _ _ _ hrest

theorem stable_iterateFrom (closure : Option α → Program (ListMemory α) Unit) (start : Pointer) :
    Stable fun rounds => iterateFrom closure rounds start := by
  intro rounds
  induction rounds generalizing start with
  | zero =>
    intro m r h
    cases h
  | succ rounds ih =>
    intro m r h
    cases start with
    | none => exact h
    | some a =>
      obtain ⟨c, m₁, hderef, hrest⟩ := bind_eq_ok h
      obtain ⟨_, m₂, hclosure, hrest⟩ := bind_eq_ok hrest
      obtain ⟨c', m₃, hagain, hrest⟩ := bind_eq_ok hrest
      exact (bind_of_ok hderef).trans
        ((bind_of_ok hclosure).trans ((bind_of_ok hagain).trans (ih _ _ _ hrest)))

theorem stable_cleanFrom (self : ℕ) :
    Stable fun rounds => (cleanFrom self rounds : Program (ListMemory α) Unit) := by
  intro rounds
  induction rounds with
  | zero =>
    intro m r h
    cases h
  | succ rounds ih =>
    intro m r h
    obtain ⟨list, m₁, hlist, hrest⟩ := bind_eq_ok h
    refine (bind_of_ok hlist).trans ?_
    cases hhead : list.head with
    | none =>
      simp only [hhead] at hrest ⊢
      exact hrest
    | some a =>
      simp only [hhead] at hrest ⊢
      obtain ⟨c, m₂, hderef, hrest⟩ := bind_eq_ok hrest
      obtain ⟨_, m₃, hset, hrest⟩ := bind_eq_ok hrest
      obtain ⟨_, m₄, hfree, hrest⟩ := bind_eq_ok hrest
      exact (bind_of_ok hderef).trans
        ((bind_of_ok hset).trans ((bind_of_ok hfree).trans (ih _ _ hrest)))

theorem stable_listFindElement (self : ℕ) (condition : Option α → Bool) :
    Stable fun rounds => listFindElement rounds self condition :=
  (Stable.const (listAt self)).bind fun list => stable_findFrom condition list.head 0

theorem stable_listIterate (self : ℕ) (closure : Option α → Program (ListMemory α) Unit) :
    Stable fun rounds => listIterate rounds self closure :=
  (Stable.const (listAt self)).bind fun list => stable_iterateFrom closure list.head

theorem stable_listClean (self : ℕ) :
    Stable fun rounds => (listClean rounds self : Program (ListMemory α) Unit) :=
  (stable_cleanFrom self).bind fun _ => .const _

theorem stable_exec (malloc : Malloc α) (op : ListOp α) :
    Stable fun rounds => exec malloc rounds op := by
  cases op with
  | addAll self other => exact Stable.giving (stable_listIterate other _) _
  | find self condition =>
    refine Stable.giving ((stable_listFindElement self condition).bind fun found => ?_) _
    exact .const (dataOf found.1)
  | findIndex self condition =>
    refine Stable.giving ((stable_listFindElement self condition).bind fun found => ?_) _
    exact .const (pure found.2)
  | removeByCondition self condition =>
    refine Stable.giving ((stable_listFindElement self condition).bind fun found => ?_) _
    cases found.1 with
    | none => exact .const (pure none)
    | some a => exact .const (listRemove self found.2)
  | filter self condition =>
    refine Stable.giving ((Stable.const (listCreate malloc)).bind fun filtered => ?_) _
    exact (stable_listIterate self _).bind fun _ => .const (pure filtered)
  | map self transformer =>
    refine Stable.giving ((Stable.const (listCreate malloc)).bind fun mapped => ?_) _
    exact (stable_listIterate self _).bind fun _ => .const (pure mapped)
  | clean self => exact Stable.giving (stable_listClean self) _
  | destroy self => exact Stable.giving ((stable_listClean self).bind fun _ => .const _) _
  | create | add | get | addInIndex | replace | remove | size | isEmpty | take | takeAndRemove =>
    exact Stable.const _

end Stable

section Refinement

variable {malloc : Malloc α} {m m' : ListMemory α} {lists : ℕ → Option (List (ℕ × Option α))}
  {self l : ℕ} {op : ListOp α} {r : ListResult α} {cells : List (ℕ × Option α)}
  {xs : List (Option α)}

def sequences (lists : ℕ → Option (List (ℕ × Option α))) : Sequences α :=
  fun l => (lists l).map contents

theorem sequences_update (l : ℕ) (new : Option (List (ℕ × Option α))) :
    sequences (Function.update lists l new) =
      Function.update (sequences lists) l (new.map contents) := by
  funext l'
  by_cases hl : l' = l
  · subst hl
    rw [sequences, Function.update_self, Function.update_self]
  · rw [sequences, Function.update_of_ne hl, Function.update_of_ne hl, sequences]

theorem sequences_of (h : lists self = some cells) :
    sequences lists self = some (contents cells) := by
  rw [sequences, h]
  rfl

theorem Layout.exists_unused (h : Layout m lists) : ∃ l, lists l = none := by
  have hunused := m.root.unused m.root.top (Nat.le_refl _)
  rw [h.record] at hunused
  exact ⟨m.root.top, Option.map_eq_none_iff.mp hunused⟩

/-- The outcome of an operation is the one it has on plain sequences. -/
def Refined (op : ListOp α) (lists : ℕ → Option (List (ℕ × Option α))) (r : ListResult α)
    (m' : ListMemory α) : Prop :=
  ∃ l lists', lists l = none ∧ Layout m' lists' ∧
    op.effect l (sequences lists) = some (r, sequences lists')

theorem refined_query (h : Layout m lists)
    (heffect : ∀ l, op.effect l (sequences lists) = some (r, sequences lists)) :
    Refined op lists r m := by
  obtain ⟨l, hl⟩ := h.exists_unused
  exact ⟨l, lists, hl, h, heffect l⟩

theorem refined_created (hl : lists l = none) (hm' : Becomes lists l m' xs)
    (heffect : op.effect l (sequences lists) =
      some (r, Function.update (sequences lists) l (some xs))) : Refined op lists r m' := by
  obtain ⟨cells, hlayout, rfl⟩ := hm'
  refine ⟨l, _, hl, hlayout, heffect.trans ?_⟩
  rw [sequences_update]
  rfl

theorem refined_becomes (h : Layout m lists) (hm' : Becomes lists self m' xs)
    (heffect : ∀ l, op.effect l (sequences lists) =
      some (r, Function.update (sequences lists) self (some xs))) : Refined op lists r m' := by
  obtain ⟨l, hl⟩ := h.exists_unused
  obtain ⟨cells, hlayout, rfl⟩ := hm'
  refine ⟨l, _, hl, hlayout, (heffect l).trans ?_⟩
  rw [sequences_update]
  rfl

theorem addAll_ends (malloc : Malloc α) {other : ℕ} {cells' : List (ℕ × Option α)}
    (h : Layout m lists) (hself : lists self = some cells) (hother : lists other = some cells')
    (hundefined : ¬ (self = other ∧ contents cells' ≠ [])) :
    ∃ rounds, Ends (exec malloc rounds (.addAll self other)) m
      (Refined (.addAll self other) lists) := by
  have heffect : ∀ l, (ListOp.addAll self other).effect l (sequences lists) = some (.nothing,
      Function.update (sequences lists) self (some (contents cells ++ contents cells'))) := by
    intro l
    rw [ListOp.effect, sequences_of hself, sequences_of hother]
    exact if_neg hundefined
  by_cases hne : self = other
  · subst hne
    have hnil : cells' = [] := by
      by_contra hcells'
      exact hundefined ⟨rfl, fun hnil => hcells' (List.map_eq_nil_iff.mp hnil)⟩
    subst hnil
    obtain rfl := Option.some.inj (hself.symm.trans hother)
    refine ⟨1, .of_ok (giving_of_ok (listAddAll_nil h hself)) ?_⟩
    exact refined_becomes h (h.unchanged hself) heffect
  · refine ⟨cells'.length + 1,
      (listAddAll_ends hne h hself hother (Nat.lt_succ_self _)).giving fun _ m' hm' => ?_⟩
    exact refined_becomes h hm' heffect

theorem remove_ends (malloc : Malloc α) (h : Layout m lists) (hself : lists self = some cells)
    (index : ℤ) (hdefined : (ListOp.remove self index).effect l (sequences lists) ≠ none) :
    ∃ rounds, Ends (exec malloc rounds (.remove self index)) m
      (Refined (.remove self index) lists) := by
  rw [ListOp.effect, sequences_of hself] at hdefined
  by_cases hnil : contents cells = []
  · obtain rfl : cells = [] := List.map_eq_nil_iff.mp hnil
    refine ⟨0, .of_ok (giving_of_ok (listRemove_nil (h.isList hself) index))
      (refined_query h fun l => ?_)⟩
    rw [ListOp.effect, sequences_of hself]
    rfl
  · have hindex : index < (contents cells).length ∧ 0 ≤ index := by
      by_contra hnot
      exact hdefined ((if_neg hnil).trans (if_neg hnot))
    refine ⟨0, (listRemove_ends h hself (by rwa [length_contents] at hindex)).giving
      fun x m' hx => ?_⟩
    refine refined_becomes h hx.2 fun l => ?_
    rw [ListOp.effect, sequences_of hself, hx.1]
    exact (if_neg hnil).trans (if_pos hindex)

theorem takeAndRemove_ends (malloc : Malloc α) (h : Layout m lists)
    (hself : lists self = some cells) (count : ℤ) :
    ∃ rounds, Ends (exec malloc rounds (.takeAndRemove self count)) m
      (Refined (.takeAndRemove self count) lists) := by
  refine ⟨0, (listTakeAndRemove_ends count h hself).giving fun l m' hl => ?_⟩
  obtain ⟨hnone, cells', cells₁, hlayout, hcells', hcells₁⟩ := hl
  refine ⟨l, _, hnone, hlayout, ?_⟩
  rw [ListOp.effect, sequences_of hself, sequences_update, sequences_update, Option.map_some,
    Option.map_some, Option.map_some, hcells', hcells₁]

theorem destroy_ends (malloc : Malloc α) (h : Layout m lists) (hself : lists self = some cells) :
    ∃ rounds, Ends (exec malloc rounds (.destroy self)) m (Refined (.destroy self) lists) := by
  refine ⟨_, (listDestroy_ends h hself (Nat.lt_succ_self _)).giving fun _ m' hm' => ?_⟩
  obtain ⟨l, hl⟩ := h.exists_unused
  refine ⟨l, _, hl, hm', ?_⟩
  rw [ListOp.effect, sequences_of hself, sequences_update]
  rfl

/-- With lists that exist every other operation has an outcome. -/
theorem exec_ends (malloc : Malloc α) (h : Layout m lists)
    (huses : ∀ l ∈ op.handles, lists l ≠ none)
    (hdefined : op.effect l (sequences lists) ≠ none) :
    ∃ rounds, Ends (exec malloc rounds op) m (Refined op lists) := by
  have hlive : ∀ self ∈ op.handles, ∃ cells, lists self = some cells :=
    fun self hself => Option.ne_none_iff_exists'.mp (huses self hself)
  cases op with
  | create =>
    refine ⟨0, (listCreate_ends h).giving fun l m' hl => ?_⟩
    exact refined_created hl.1 ⟨[], hl.2, rfl⟩ rfl
  | add self data =>
    obtain ⟨cells, hself⟩ := hlive self List.mem_cons_self
    refine ⟨0, (listAdd_ends h hself).giving fun n m' hn => ?_⟩
    refine refined_becomes h hn.2 fun l => ?_
    rw [ListOp.effect, sequences_of hself, hn.1, ← length_contents]
    rfl
  | addAll self other =>
    obtain ⟨cells, hself⟩ := hlive self List.mem_cons_self
    obtain ⟨cells', hother⟩ := hlive other (List.mem_cons_of_mem _ List.mem_cons_self)
    rw [ListOp.effect, sequences_of hself, sequences_of hother] at hdefined
    exact addAll_ends malloc h hself hother fun hboth => hdefined (if_pos hboth)
  | get self index =>
    obtain ⟨cells, hself⟩ := hlive self List.mem_cons_self
    refine ⟨0, .of_ok (giving_of_ok (listGet_of_isList (h.isList hself) index))
      (refined_query h fun l => ?_)⟩
    rw [ListOp.effect, sequences_of hself]
    rfl
  | addInIndex self index data =>
    obtain ⟨cells, hself⟩ := hlive self List.mem_cons_self
    refine ⟨0, (listAddInIndex_ends h hself index data).giving fun _ m' hm' => ?_⟩
    refine refined_becomes h hm' fun l => ?_
    rw [ListOp.effect, sequences_of hself]
    rfl
  | replace self index data =>
    obtain ⟨cells, hself⟩ := hlive self List.mem_cons_self
    refine ⟨0, (listReplace_ends h hself index data).giving fun x m' hx => ?_⟩
    refine refined_becomes h hx.2 fun l => ?_
    rw [ListOp.effect, sequences_of hself, hx.1]
    rfl
  | find self condition =>
    obtain ⟨cells, hself⟩ := hlive self List.mem_cons_self
    refine ⟨_, .of_ok (giving_of_ok (listFind_of_isList (h.isList hself) (Nat.lt_succ_self _)))
      (refined_query h fun l => ?_)⟩
    rw [ListOp.effect, sequences_of hself]
    rfl
  | findIndex self condition =>
    obtain ⟨cells, hself⟩ := hlive self List.mem_cons_self
    refine ⟨_, .of_ok (giving_of_ok (listFindIndex_of_isList (h.isList hself) (Nat.lt_succ_self _)))
      (refined_query h fun l => ?_)⟩
    rw [ListOp.effect, sequences_of hself]
    rfl
  | remove self index =>
    obtain ⟨cells, hself⟩ := hlive self List.mem_cons_self
    exact remove_ends malloc h hself index hdefined
  | removeByCondition self condition =>
    obtain ⟨cells, hself⟩ := hlive self List.mem_cons_self
    refine ⟨_, (listRemoveByCondition_ends h hself (Nat.lt_succ_self _)).giving
      fun x m' hx => ?_⟩
    refine refined_becomes h hx.2 fun l => ?_
    rw [ListOp.effect, sequences_of hself, hx.1]
    rfl
  | size self =>
    obtain ⟨cells, hself⟩ := hlive self List.mem_cons_self
    refine ⟨0, .of_ok (giving_of_ok (listSize_of_isList (h.isList hself)))
      (refined_query h fun l => ?_)⟩
    rw [ListOp.effect, sequences_of hself]
    rfl
  | isEmpty self =>
    obtain ⟨cells, hself⟩ := hlive self List.mem_cons_self
    refine ⟨0, .of_ok (giving_of_ok (listIsEmpty_of_isList (h.isList hself)))
      (refined_query h fun l => ?_)⟩
    rw [ListOp.effect, sequences_of hself]
    rfl
  | take self count =>
    obtain ⟨cells, hself⟩ := hlive self List.mem_cons_self
    refine ⟨0, (listTake_ends count h hself).giving fun l m' hl => ?_⟩
    refine refined_created hl.1 hl.2 ?_
    rw [ListOp.effect, sequences_of hself]
    rfl
  | takeAndRemove self count =>
    obtain ⟨cells, hself⟩ := hlive self List.mem_cons_self
    exact takeAndRemove_ends malloc h hself count
  | filter self condition =>
    obtain ⟨cells, hself⟩ := hlive self List.mem_cons_self
    refine ⟨_, (listFilter_ends condition h hself (Nat.lt_succ_self _)).giving
      fun l m' hl => ?_⟩
    refine refined_created hl.1 hl.2 ?_
    rw [ListOp.effect, sequences_of hself]
    rfl
  | map self transformer =>
    obtain ⟨cells, hself⟩ := hlive self List.mem_cons_self
    refine ⟨_, (listMap_ends transformer h hself (Nat.lt_succ_self _)).giving
      fun l m' hl => ?_⟩
    refine refined_created hl.1 hl.2 ?_
    rw [ListOp.effect, sequences_of hself]
    rfl
  | clean self =>
    obtain ⟨cells, hself⟩ := hlive self List.mem_cons_self
    refine ⟨_, (listClean_ends h hself (Nat.lt_succ_self _)).giving fun _ m' hm' => ?_⟩
    refine refined_becomes h hm' fun l => ?_
    rw [ListOp.effect, sequences_of hself]
    rfl
  | destroy self =>
    obtain ⟨cells, hself⟩ := hlive self List.mem_cons_self
    exact destroy_ends malloc h hself

/-- How the two operations without an outcome stop. -/
def ListOp.stops : ListOp α → Stop
  | .addAll _ _ => .running
  | _ => .fault

theorem exec_undefined (malloc : Malloc α) (h : Layout m lists)
    (huses : ∀ l ∈ op.handles, lists l ≠ none) (hundefined : op.effect l (sequences lists) = none)
    (rounds : ℕ) : exec malloc rounds op m = .error op.stops := by
  have hlive : ∀ self ∈ op.handles, ∃ cells, lists self = some cells :=
    fun self hself => Option.ne_none_iff_exists'.mp (huses self hself)
  cases op with
  | addAll self other =>
    obtain ⟨cells, hself⟩ := hlive self List.mem_cons_self
    obtain ⟨cells', hother⟩ := hlive other (List.mem_cons_of_mem _ List.mem_cons_self)
    rw [ListOp.effect, sequences_of hself, sequences_of hother] at hundefined
    by_cases hboth : self = other ∧ contents cells' ≠ []
    · obtain ⟨rfl, hnil⟩ := hboth
      exact giving_of_error (listAddAll_endless h hother fun heq => hnil (by rw [heq]; rfl))
    · cases (if_neg hboth).symm.trans hundefined
  | remove self index =>
    obtain ⟨cells, hself⟩ := hlive self List.mem_cons_self
    rw [ListOp.effect, sequences_of hself] at hundefined
    by_cases hnil : contents cells = []
    · cases (if_pos hnil).symm.trans hundefined
    · by_cases hindex : index < (contents cells).length ∧ 0 ≤ index
      · cases ((if_neg hnil).trans (if_pos hindex)).symm.trans hundefined
      · refine giving_of_error (listRemove_outside (h.isList hself) (fun heq => hnil ?_) ?_)
        · rw [heq]
          rfl
        · rwa [length_contents] at hindex
  | create => cases hundefined
  | add self | get self | addInIndex self | replace self | find self | findIndex self
  | removeByCondition self | size self | isEmpty self | take self | takeAndRemove self
  | filter self | map self | clean self | destroy self =>
    obtain ⟨cells, hself⟩ := hlive self List.mem_cons_self
    rw [ListOp.effect, sequences_of hself] at hundefined
    cases hundefined

theorem returns_refined (h : Layout m lists) (huses : ∀ l ∈ op.handles, lists l ≠ none)
    (hreturns : Returns malloc op m r m') : Refined op lists r m' := by
  obtain ⟨rounds, hr⟩ := hreturns
  obtain ⟨l, -⟩ := h.exists_unused
  by_cases hdefined : op.effect l (sequences lists) = none
  · rw [exec_undefined malloc h huses hdefined] at hr
    cases hr
  · obtain ⟨rounds', r', m₁, hr', hrefined⟩ := exec_ends malloc h huses hdefined
    obtain ⟨rfl, rfl⟩ := Prod.mk.inj ((stable_exec malloc op).unique hr hr')
    exact hrefined

end Refinement

def noLists : ListMemory α := ⟨Heap.empty, Heap.empty⟩

theorem layout_noLists : Layout (noLists : ListMemory α) fun _ => none :=
  ⟨Tiled.empty, fun _ => rfl⟩

/-- Operations on lists that exist, one after the other, with what each returned. -/
inductive Run (malloc : Malloc α) :
    ListMemory α → List (ListOp α × ListResult α) → ListMemory α → Prop where
  | nil (m : ListMemory α) : Run malloc m [] m
  | cons {m m' m'' : ListMemory α} {op : ListOp α} {r : ListResult α}
      {trace : List (ListOp α × ListResult α)} (huses : ∀ l ∈ op.handles, m.root.cell l ≠ none)
      (hreturns : Returns malloc op m r m') (hrest : Run malloc m' trace m'') :
      Run malloc m ((op, r) :: trace) m''

/-- Running through the operations of a trace, as long as each has lists that exist and returns what
the trace says. -/
def replay [DecidableEq α] (malloc : Malloc α) (rounds : ℕ) :
    ListMemory α → List (ListOp α × ListResult α) → Option (ListMemory α)
  | m, [] => some m
  | m, (op, r) :: trace =>
    match exec malloc rounds op m with
    | .error _ => none
    | .ok (r', m') =>
      if r' = r ∧ op.handles.all (fun l => (m.root.cell l).isSome) then
        replay malloc rounds m' trace
      else none

theorem Run.of_replay [DecidableEq α] {malloc : Malloc α} {rounds : ℕ} {m m' : ListMemory α}
    {trace : List (ListOp α × ListResult α)} (h : replay malloc rounds m trace = some m') :
    Run malloc m trace m' := by
  induction trace generalizing m with
  | nil =>
    cases h
    exact .nil _
  | cons e trace ih =>
    obtain ⟨op, r⟩ := e
    rw [replay] at h
    cases hexec : exec malloc rounds op m with
    | error stop =>
      simp only [hexec] at h
      cases h
    | ok outcome =>
      obtain ⟨r', m₁⟩ := outcome
      simp only [hexec] at h
      split_ifs at h with hboth
      obtain ⟨rfl, hlive⟩ := hboth
      refine .cons (fun l hl => ?_) ⟨rounds, hexec⟩ (ih h)
      exact Option.isSome_iff_ne_none.mp (List.all_eq_true.mp hlive l hl)

inductive SequenceRun : Sequences α → List (ListOp α × ListResult α) → Sequences α → Prop where
  | nil (s : Sequences α) : SequenceRun s [] s
  | cons {s s' s'' : Sequences α} {op : ListOp α} {r : ListResult α}
      {trace : List (ListOp α × ListResult α)} {l : ℕ} (hunused : s l = none)
      (heffect : op.effect l s = some (r, s')) (hrest : SequenceRun s' trace s'') :
      SequenceRun s ((op, r) :: trace) s''

def Holds (m : ListMemory α) (l : ℕ) (xs : List (Option α)) : Prop :=
  ∃ cells, IsList m l cells ∧ contents cells = xs

section Runs

variable {malloc : Malloc α} {m m' : ListMemory α} {lists : ℕ → Option (List (ℕ × Option α))}
  {trace : List (ListOp α × ListResult α)} {op : ListOp α} {r : ListResult α} {self l q : ℕ}
  {xs ys : List (Option α)}

theorem Layout.lives (h : Layout m lists) (hcell : m.root.cell l ≠ none) : lists l ≠ none := by
  rw [h.record] at hcell
  exact fun hnone => hcell (by rw [hnone]; rfl)

theorem Run.refined (h : Run malloc m trace m') (hlayout : Layout m lists) :
    ∃ lists', Layout m' lists' ∧ SequenceRun (sequences lists) trace (sequences lists') := by
  induction h generalizing lists with
  | nil m => exact ⟨lists, hlayout, .nil _⟩
  | cons huses hreturns hrest ih =>
    obtain ⟨l, lists₁, hl, hlayout₁, heffect⟩ :=
      returns_refined hlayout (fun l hl => hlayout.lives (huses l hl)) hreturns
    obtain ⟨lists', hlayout', hrun⟩ := ih hlayout₁
    refine ⟨lists', hlayout', .cons ?_ heffect hrun⟩
    rw [sequences, hl]
    rfl

/-- Whatever the operations, every list holds what plain sequences would, with the right count, and
each element of the heap is in exactly one list. -/
theorem run_lays_out (h : Run malloc noLists trace m) :
    ∃ lists, Layout m lists ∧ SequenceRun (fun _ => none) trace (sequences lists) :=
  h.refined layout_noLists

/-- A queue, and a list that takes over what is in front and is added back. -/
def handOver : List (ListOp ℕ × ListResult ℕ) :=
  [(.create, .list 0), (.add 0 (some 5), .number 0), (.add 0 (some 7), .number 1),
    (.takeAndRemove 0 1, .list 1), (.remove 0 0, .data (some 7)), (.addAll 0 1, .nothing)]

theorem run_handOver : ∃ m, Run (Malloc.top ℕ) noLists handOver m := by
  have hreplay : (replay (Malloc.top ℕ) 3 noLists handOver).isSome = true := by decide +kernel
  obtain ⟨m, hm⟩ := Option.isSome_iff_exists.mp hreplay
  exact ⟨m, .of_replay hm⟩

theorem handOver_lays_out : ∃ m, Run (Malloc.top ℕ) noLists handOver m ∧
    ∃ lists, Layout m lists ∧ SequenceRun (fun _ => none) handOver (sequences lists) := by
  obtain ⟨m, hrun⟩ := run_handOver
  exact ⟨m, hrun, run_lays_out hrun⟩

theorem Holds.unique (h : Holds m l xs) (h' : Holds m l ys) : xs = ys := by
  obtain ⟨cells, hlist, rfl⟩ := h
  obtain ⟨cells', hlist', rfl⟩ := h'
  have hrecord := hlist.record.symm.trans hlist'.record
  have hfirst : first cells = first cells' := congrArg TList.head (Option.some.inj hrecord)
  rw [hlist.chain.unique (hfirst ▸ hlist'.chain)]

theorem Layout.holds_iff (h : Layout m lists) : Holds m l xs ↔ sequences lists l = some xs := by
  constructor
  · rintro ⟨cells, hlist, rfl⟩
    have hlive : lists l ≠ none := h.lives (by rw [hlist.record]; exact Option.some_ne_none _)
    obtain ⟨cells', hcells'⟩ := Option.ne_none_iff_exists'.mp hlive
    rw [sequences_of hcells']
    exact congrArg some (Holds.unique ⟨cells', h.isList hcells', rfl⟩ ⟨cells, hlist, rfl⟩)
  · intro hs
    obtain ⟨cells, hcells, rfl⟩ := Option.map_eq_some_iff.mp hs
    exact ⟨cells, h.isList hcells, rfl⟩

/-- What an operation on lists that exist must not be: the removal of what a list with elements
does not have, or the addition of such a list to itself. -/
structure Sound (m : ListMemory α) (op : ListOp α) : Prop where
  inRange : ∀ self index xs, op = .remove self index → Holds m self xs →
    xs = [] ∨ (index < xs.length ∧ 0 ≤ index)
  apart : ∀ self xs, op = .addAll self self → Holds m self xs → xs = []

theorem sound_iff (h : Layout m lists) (huses : ∀ l ∈ op.handles, lists l ≠ none) :
    Sound m op ↔ op.effect l (sequences lists) ≠ none := by
  have hlive : ∀ self ∈ op.handles, ∃ xs, sequences lists self = some xs := by
    intro self hself
    obtain ⟨cells, hcells⟩ := Option.ne_none_iff_exists'.mp (huses self hself)
    exact ⟨contents cells, sequences_of hcells⟩
  cases op with
  | addAll self other =>
    obtain ⟨xs, hself⟩ := hlive self List.mem_cons_self
    obtain ⟨ys, hother⟩ := hlive other (List.mem_cons_of_mem _ List.mem_cons_self)
    rw [ListOp.effect, hself, hother]
    constructor
    · intro hsound
      refine fun hnone => ?_
      by_cases hboth : self = other ∧ ys ≠ []
      · obtain ⟨rfl, hys⟩ := hboth
        exact hys (hsound.apart self ys rfl (h.holds_iff.mpr hother))
      · cases (if_neg hboth).symm.trans hnone
    · intro hdefined
      refine ⟨fun _ _ _ hop => (by cases hop), fun self' zs hop hholds => ?_⟩
      cases hop
      obtain rfl := Option.some.inj (hother.symm.trans (h.holds_iff.mp hholds))
      by_contra hys
      exact hdefined (if_pos ⟨rfl, hys⟩)
  | remove self index =>
    obtain ⟨xs, hself⟩ := hlive self List.mem_cons_self
    rw [ListOp.effect, hself]
    constructor
    · intro hsound hnone
      have hnil : xs ≠ [] := fun hnil => by cases (if_pos hnil).symm.trans hnone
      have hindex := (hsound.inRange self index xs rfl (h.holds_iff.mpr hself)).resolve_left hnil
      cases ((if_neg hnil).trans (if_pos hindex)).symm.trans hnone
    · intro hdefined
      refine ⟨fun self' index' zs hop hholds => ?_, fun _ _ hop => (by cases hop)⟩
      cases hop
      obtain rfl := Option.some.inj (hself.symm.trans (h.holds_iff.mp hholds))
      by_contra hnot
      rw [not_or] at hnot
      exact hdefined ((if_neg hnot.1).trans (if_neg hnot.2))
  | create =>
    exact ⟨fun _ => Option.some_ne_none _,
      fun _ => ⟨fun _ _ _ hop => (by cases hop), fun _ _ hop => (by cases hop)⟩⟩
  | add self | get self | addInIndex self | replace self | find self | findIndex self
  | removeByCondition self | size self | isEmpty self | take self | takeAndRemove self
  | filter self | map self | clean self | destroy self =>
    obtain ⟨xs, hself⟩ := hlive self List.mem_cons_self
    rw [ListOp.effect, hself]
    exact ⟨fun _ => Option.some_ne_none _,
      fun _ => ⟨fun _ _ _ hop => (by cases hop), fun _ _ hop => (by cases hop)⟩⟩

/-- In every run the next operation returns unless it is one of the two; a wrong removal reads
through the null pointer, and the list added to itself never ends. -/
theorem returns_iff_sound (h : Run malloc noLists trace m)
    (huses : ∀ l ∈ op.handles, m.root.cell l ≠ none) :
    ((∃ r m', Returns malloc op m r m') ↔ Sound m op) ∧
      (¬ Sound m op → ∀ rounds, exec malloc rounds op m = .error op.stops) := by
  obtain ⟨lists, hlayout, -⟩ := run_lays_out h
  have hlive : ∀ l ∈ op.handles, lists l ≠ none := fun l hl => hlayout.lives (huses l hl)
  have hsound := sound_iff (l := 0) hlayout hlive
  have hstops : ¬ Sound m op → ∀ rounds, exec malloc rounds op m = .error op.stops :=
    fun hnot => exec_undefined malloc hlayout hlive (not_not.mp (mt hsound.mpr hnot))
  refine ⟨⟨fun hreturns => ?_, fun hop => ?_⟩, hstops⟩
  · obtain ⟨r, m', rounds, hr⟩ := hreturns
    by_contra hnot
    rw [hstops hnot] at hr
    cases hr
  · obtain ⟨rounds, r, m', hr, -⟩ := exec_ends malloc hlayout hlive (hsound.mp hop)
    exact ⟨r, m', rounds, hr⟩

/-- Nothing is at index 5 of the queue. -/
theorem handOver_remove : ∃ m, Run (Malloc.top ℕ) noLists handOver m ∧
    ((∃ r m', Returns (Malloc.top ℕ) (.remove 0 5) m r m') ↔ Sound m (.remove 0 5)) ∧
      (¬ Sound m (.remove 0 5) →
        ∀ rounds, exec (Malloc.top ℕ) rounds (.remove 0 5) m = .error .fault) := by
  have hreplay : ((replay (Malloc.top ℕ) 3 noLists handOver).any fun m =>
      (m.root.cell 0).isSome) = true := by decide +kernel
  obtain ⟨m, hm, hlive⟩ := (Option.any_eq_true _ _).mp hreplay
  refine ⟨m, .of_replay hm, returns_iff_sound (.of_replay hm) fun l hl => ?_⟩
  rw [List.mem_singleton.mp hl]
  exact Option.isSome_iff_ne_none.mp hlive

def ListOp.changes : ListOp α → List ℕ
  | .add self _ | .addAll self _ | .addInIndex self _ _ | .replace self _ _ | .remove self _
  | .removeByCondition self _ | .takeAndRemove self _ | .clean self | .destroy self => [self]
  | .create | .get _ _ | .find _ _ | .findIndex _ _ | .size _ | .isEmpty _ | .take _ _
  | .filter _ _ | .map _ _ => []

theorem effect_frame {s s' : Sequences α} (h : op.effect l s = some (r, s')) (hq : q ≠ l)
    (hchanges : q ∉ op.changes) : s' q = s q := by
  cases op with
  | create =>
    cases h
    exact Function.update_of_ne hq ..
  | get | find | findIndex | size | isEmpty =>
    obtain ⟨xs, -, heq⟩ := Option.map_eq_some_iff.mp h
    cases heq
    rfl
  | take | filter | map =>
    obtain ⟨xs, -, heq⟩ := Option.map_eq_some_iff.mp h
    cases heq
    exact Function.update_of_ne hq ..
  | add | addInIndex | replace | removeByCondition | clean | destroy =>
    obtain ⟨xs, -, heq⟩ := Option.map_eq_some_iff.mp h
    cases heq
    exact Function.update_of_ne (List.ne_of_not_mem_cons hchanges) ..
  | takeAndRemove =>
    obtain ⟨xs, -, heq⟩ := Option.map_eq_some_iff.mp h
    cases heq
    exact (Function.update_of_ne hq ..).trans
      (Function.update_of_ne (List.ne_of_not_mem_cons hchanges) ..)
  | addAll =>
    obtain ⟨xs, -, hrest⟩ := Option.bind_eq_some_iff.mp h
    obtain ⟨ys, -, heq⟩ := Option.bind_eq_some_iff.mp hrest
    split_ifs at heq
    cases heq
    exact Function.update_of_ne (List.ne_of_not_mem_cons hchanges) ..
  | remove =>
    obtain ⟨xs, -, heq⟩ := Option.bind_eq_some_iff.mp h
    split_ifs at heq
    · cases heq
      rfl
    · cases heq
      exact Function.update_of_ne (List.ne_of_not_mem_cons hchanges) ..

/-- If the operation changes `q` at all, it is `queue_push` of an element or `queue_pop`. -/
def AsQueue (q : ℕ) (op : ListOp α) : Prop :=
  q ∈ op.changes → (∃ x, op = .add q (some x)) ∨ op = .remove q 0

def pushedBy (q : ℕ) (e : ListOp α × ListResult α) : Option α :=
  match e.1 with
  | .add self data => if self = q then data else none
  | _ => none

def poppedBy (q : ℕ) (e : ListOp α × ListResult α) : Option α :=
  match e with
  | (.remove self _, .data data) => if self = q then data else none
  | _ => none

theorem notBy_of_notMem (hchanges : q ∉ op.changes) :
    pushedBy q (op, r) = none ∧ poppedBy q (op, r) = none := by
  cases op with
  | add self data =>
    exact ⟨if_neg (Ne.symm (List.ne_of_not_mem_cons hchanges)), rfl⟩
  | remove self index =>
    refine ⟨rfl, ?_⟩
    cases r with
    | data x => exact if_neg (Ne.symm (List.ne_of_not_mem_cons hchanges))
    | nothing | number | truth | list => rfl
  | create | addAll | get | addInIndex | replace | find | findIndex | removeByCondition | size
  | isEmpty | take | takeAndRemove | filter | map | clean | destroy => exact ⟨rfl, rfl⟩

theorem pushedBy_add (x : α) (r : ListResult α) : pushedBy q (.add q (some x), r) = some x :=
  if_pos rfl

theorem poppedBy_remove (index : ℤ) (x : Option α) :
    poppedBy q (.remove q index, .data x) = x := if_pos rfl

theorem effect_remove_cons {s : Sequences α} {x : Option α} (l : ℕ) (h : s q = some (x :: xs)) :
    (ListOp.remove q 0).effect l s = some (.data x, Function.update s q (some xs)) := by
  rw [ListOp.effect, h, Option.bind_some, if_neg (List.cons_ne_nil x xs), if_pos (by simp)]
  rfl

theorem effect_fifo {s s' : Sequences α} {contents : List α} (h : op.effect l s = some (r, s'))
    (hl : s l = none) (hs : s q = some (contents.map some)) (hqueue : AsQueue q op) :
    ∃ contents', s' q = some (contents'.map some) ∧
      contents ++ (pushedBy q (op, r)).toList = (poppedBy q (op, r)).toList ++ contents' := by
  have hne : q ≠ l := by
    rintro rfl
    rw [hl] at hs
    cases hs
  by_cases hchanges : q ∈ op.changes
  · obtain ⟨x, rfl⟩ | rfl := hqueue hchanges
    · rw [ListOp.effect, hs] at h
      cases h
      refine ⟨contents ++ [x], ?_, ?_⟩
      · rw [Function.update_self, List.map_append]
        rfl
      · rw [pushedBy_add]
        rfl
    · cases contents with
      | nil =>
        rw [ListOp.effect, hs] at h
        cases h
        exact ⟨[], hs, by rw [poppedBy_remove]; rfl⟩
      | cons x contents =>
        rw [effect_remove_cons l hs] at h
        cases h
        refine ⟨contents, Function.update_self .., ?_⟩
        rw [poppedBy_remove]
        simp [pushedBy]
  · obtain ⟨hpushed, hpopped⟩ := notBy_of_notMem hchanges (r := r)
    refine ⟨contents, (effect_frame h hne hchanges).trans hs, ?_⟩
    rw [hpushed, hpopped, Option.toList_none, List.append_nil, List.nil_append]

theorem SequenceRun.fifo {s s' : Sequences α} {contents : List α} (h : SequenceRun s trace s')
    (hs : s q = some (contents.map some)) (hqueue : ∀ e ∈ trace, AsQueue q e.1) :
    ∃ contents', s' q = some (contents'.map some) ∧
      contents ++ trace.filterMap (pushedBy q) = trace.filterMap (poppedBy q) ++ contents' := by
  induction h generalizing contents with
  | nil s => exact ⟨contents, hs, by simp⟩
  | @cons s s₁ s' op r trace l hunused heffect hrest ih =>
    obtain ⟨contents₁, hs₁, hstep⟩ :=
      effect_fifo heffect hunused hs (hqueue _ List.mem_cons_self)
    obtain ⟨contents', hs', hrun⟩ :=
      ih hs₁ fun e he => hqueue e (List.mem_cons_of_mem _ he)
    refine ⟨contents', hs', ?_⟩
    have hpushed : List.filterMap (pushedBy q) ((op, r) :: trace) =
        (pushedBy q (op, r)).toList ++ trace.filterMap (pushedBy q) := by
      rw [List.filterMap_cons]
      cases pushedBy q (op, r) <;> rfl
    have hpopped : List.filterMap (poppedBy q) ((op, r) :: trace) =
        (poppedBy q (op, r)).toList ++ trace.filterMap (poppedBy q) := by
      rw [List.filterMap_cons]
      cases poppedBy q (op, r) <;> rfl
    rw [hpushed, hpopped, ← List.append_assoc, hstep, List.append_assoc, List.append_assoc, hrun]

/-- However the other lists are used in between: what was pushed is what was popped and, behind it,
what the queue holds. -/
theorem queue_fifo {before : List (ListOp α × ListResult α)} {held : List α}
    (hbefore : Run malloc noLists before m) (hrun : Run malloc m trace m')
    (hheld : Holds m q (held.map some)) (hqueue : ∀ e ∈ trace, AsQueue q e.1) :
    ∃ held', Holds m' q (held'.map some) ∧
      held ++ trace.filterMap (pushedBy q) = trace.filterMap (poppedBy q) ++ held' := by
  obtain ⟨lists, hlayout, -⟩ := run_lays_out hbefore
  obtain ⟨lists', hlayout', hsequences⟩ := hrun.refined hlayout
  obtain ⟨held', hs', hfifo⟩ := hsequences.fifo (hlayout.holds_iff.mp hheld) hqueue
  exact ⟨held', hlayout'.holds_iff.mpr hs', hfifo⟩

def queueTrace : List (ListOp ℕ × ListResult ℕ) :=
  [(.add 0 (some 5), .number 0), (.create, .list 1), (.add 1 (some 9), .number 0),
    (.add 0 (some 7), .number 1), (.remove 0 0, .data (some 5)), (.size 0, .number 1)]

theorem queue_fifo_queueTrace : ∃ (m m' : ListMemory ℕ) (held' : List ℕ),
    Run (Malloc.top ℕ) noLists [(.create, .list 0)] m ∧ Holds m' 0 (held'.map some) ∧
      [5, 7] = 5 :: held' := by
  have hreplay : ((replay (Malloc.top ℕ) 3 noLists [(.create, .list 0)]).any fun m =>
      decide (m.root.cell 0 = some ⟨none, 0⟩) && (replay (Malloc.top ℕ) 3 m queueTrace).isSome) =
        true := by decide +kernel
  obtain ⟨m, hm, hrest⟩ := (Option.any_eq_true _ _).mp hreplay
  rw [Bool.and_eq_true, decide_eq_true_eq] at hrest
  obtain ⟨m', hm'⟩ := Option.isSome_iff_exists.mp hrest.2
  have hempty : Holds m 0 (([] : List ℕ).map some) := ⟨[], ⟨hrest.1, rfl⟩, rfl⟩
  have hqueue : ∀ e ∈ queueTrace, AsQueue 0 e.1 := by
    simp [queueTrace, AsQueue, ListOp.changes]
  obtain ⟨held', hheld', hfifo⟩ := queue_fifo (.of_replay hm) (.of_replay hm') hempty hqueue
  exact ⟨m, m', held', .of_replay hm, hheld', hfifo⟩

end Runs

end Commons
end Sisop

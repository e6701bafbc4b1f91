import Sisop.ReadyOrder
import Sisop.SortLoops
import Sisop.ThreadAlone

/-!
# One call of `orderInsertPrioList` or `orderInsertSPNList`

With nobody else acting, the call always returns. The draining loop puts every image of `LPL` in
front of the list of arrivals; on an empty list `list_add_in_index` does nothing.
-/

namespace Sisop

namespace Shared

variable (s : Shared) (ready : List Ptr)

def withReady : Shared :=
  { s with
    queue := Function.update s.queue .lpl ready
    sem := Function.update s.sem .lplEmpty ready.length }

@[simp] theorem withReady_queue : (s.withReady ready).queue .lpl = ready := by
  simp [withReady]

@[simp] theorem withReady_sem : (s.withReady ready).sem .lplEmpty = ready.length := by
  simp [withReady]

@[simp] theorem withReady_image : (s.withReady ready).image = s.image := rfl

variable {s}

theorem withReady_self (h : s.sem .lplEmpty = (s.queue .lpl).length) :
    s.withReady (s.queue .lpl) = s := by
  rw [withReady, Function.update_eq_self, ← h, Function.update_eq_self]

variable (s) {ready}

theorem withReady_pop (p : Ptr) :
    ((s.withReady (p :: ready)).tryWait .lplEmpty).setQueue .lpl ready = s.withReady ready := by
  simp [withReady, tryWait, setQueue]

theorem withReady_push (p : Ptr) :
    ((s.withReady ready).setQueue .lpl ((s.withReady ready).queue .lpl ++ [p])).post .lplEmpty =
      s.withReady (ready ++ [p]) := by
  simp [withReady, post, setQueue]

theorem withReady_setOwner {t : Option Tid} (h : s.owner .lpl = none) :
    ((s.setOwner .lpl t).withReady ready).setOwner .lpl none = s.withReady ready :=
  setOwner_setOwner (s := s.withReady ready) h

end Shared

namespace OrderInsert

def tid : SortCaller → Tid
  | .sts => .sts
  | .configure _ => .configure

def returned : SortCaller → Thread Operation Label
  | .sts => ⟨.readALG, STS.wait⟩
  | .configure priorities => ⟨.configured priorities, []⟩

def drained (prioList ready : List Ptr) : List Ptr :=
  ready.foldl (fun prioList psImg2 => listAddInIndex prioList 0 psImg2) prioList

theorem drained_nil (ready : List Ptr) : drained [] ready = [] := by
  induction ready with
  | nil => rfl
  | cons p ready ih => exact ih

theorem drained_eq {prioList : List Ptr} (h : prioList ≠ []) (ready : List Ptr) :
    drained prioList ready = ready.reverse ++ prioList := by
  induction ready generalizing prioList with
  | nil => rfl
  | cons p ready ih =>
    have hadd : listAddInIndex prioList 0 p = p :: prioList :=
      if_pos (List.length_pos_iff.mpr h)
    change drained (listAddInIndex prioList 0 p) ready = _
    rw [hadd, ih (List.cons_ne_nil p prioList), List.reverse_cons, List.append_assoc]
    rfl

variable {cfg : Config} {s s' : Shared} {key : SortKey} {prioList ready : List Ptr}
  {caller : SortCaller}

theorem control_eq (key : SortKey) (prioList : List Ptr) (caller : SortCaller) (remaining : ℕ)
    (s : Shared) :
    (PP.machine cfg).control (tid caller) (.sortStart key prioList caller) .go s =
      control s (.sortStart key prioList caller) ∧
    (PP.machine cfg).control (tid caller) (.drain key remaining prioList caller) .go s =
      control s (.drain key remaining prioList caller) := by
  cases caller with
  | sts => exact ⟨rfl, rfl⟩
  | configure => exact ⟨rfl, rfl⟩

theorem pc_returned (caller : SortCaller) : (∀ key prioList caller' ops,
    Thread.mk (.sortStart key prioList caller') ops ≠ returned caller) ∧
      ∀ key remaining prioList caller' ops,
        Thread.mk (.drain key remaining prioList caller') ops ≠ returned caller := by
  constructor
  · intro key prioList caller' ops h
    cases caller <;> cases h
  · intro key remaining prioList caller' ops h
    cases caller <;> cases h

theorem returnsTo_drain (prioList ready : List Ptr)
    (h : (PP.machine cfg).ReturnsTo (tid caller) .go (returned caller) (s.withReady [])
      ⟨.drain key 0 (drained prioList ready) caller, []⟩ s') :
    (PP.machine cfg).ReturnsTo (tid caller) .go (returned caller) (s.withReady ready)
      ⟨.drain key ready.length prioList caller, []⟩ s' := by
  induction ready generalizing prioList with
  | nil => exact h
  | cons p ready ih =>
    refine .control ((pc_returned caller).2 _ _ _ _ _) ?_ (ih _ h)
    rw [(control_eq key prioList caller _ _).2]
    change drainOne (s.withReady (p :: ready)) key ready.length prioList caller = _
    have hpositive : 0 < (s.withReady (p :: ready)).sem .lplEmpty := by simp
    rw [drainOne, Shared.withReady_queue]
    dsimp only
    rw [if_pos hpositive, Shared.withReady_pop]

theorem execAll_enqueue {t : Tid} (sorted ready : List Ptr) :
    (PP.machine cfg).execAll t (sorted.map (.enqueue .lpl)) (s.withReady ready) =
      some (s.withReady (ready ++ sorted)) := by
  induction sorted generalizing ready with
  | nil => exact congrArg some (congrArg s.withReady (List.append_nil ready).symm)
  | cons p sorted ih =>
    have hrest := ih (ready ++ [p])
    rw [List.append_assoc, List.singleton_append] at hrest
    exact Machine.execAll_cons (congrArg some (s.withReady_push p)) hrest

theorem returnsTo_finish (sorted : List Ptr) (howner : s.owner .lpl = some (tid caller)) :
    (PP.machine cfg).ReturnsTo (tid caller) .go (returned caller) (s.withReady [])
      (finish sorted caller) ((s.withReady sorted).setOwner .lpl none) := by
  have hunlock : (PP.machine cfg).execAll (tid caller) [.unlock .lpl] (s.withReady sorted) =
      some ((s.withReady sorted).setOwner .lpl none) :=
    Machine.execAll_cons (if_pos howner) rfl
  have hops := Machine.execAll_append (execAll_enqueue sorted []) hunlock
  cases caller with
  | sts =>
    exact Machine.returnsTo_execAll (fun _ => le_rfl) hops (.here _)
  | configure priorities =>
    exact Machine.returnsTo_of_execAll (fun _ => rfl) hops (.here _)

/-- The call returns, and this is the state it leaves. -/
theorem returnsTo_orderInsert (howner : s.owner .lpl = none)
    (hsem : s.sem .lplEmpty = (s.queue .lpl).length) :
    (PP.machine cfg).ReturnsTo (tid caller) .go (returned caller) s
      ⟨.sortStart key prioList caller, [.lock .lpl]⟩
      (s.withReady (bubbleSort (key.greater s.image) (drained prioList (s.queue .lpl)))) := by
  have hlocked : (s.setOwner .lpl (some (tid caller))).owner .lpl = some (tid caller) := by
    simp [Shared.setOwner]
  have hready : (s.setOwner .lpl (some (tid caller))).withReady (s.queue .lpl) =
      s.setOwner .lpl (some (tid caller)) := Shared.withReady_self hsem
  have hfinish : (PP.machine cfg).ReturnsTo (tid caller) .go (returned caller) _
      (finish (bubbleSort (key.greater s.image) (drained prioList (s.queue .lpl))) caller) _ :=
    returnsTo_finish _ hlocked
  rw [Shared.withReady_setOwner _ howner] at hfinish
  have hdrain := returnsTo_drain prioList (s.queue .lpl)
    (.control ((pc_returned caller).2 _ _ _ _ _) (control_eq key _ caller 0 _).2 hfinish)
  rw [hready] at hdrain
  exact .exec ((pc_returned caller).1 _ _ _ _) (if_pos howner)
    (.control ((pc_returned caller).1 _ _ _ _) (control_eq key prioList caller 0 _).1 hdrain)

/-- Nothing is lost in front of a list that holds something, or with nothing to drain. -/
theorem drained_perm_iff {prioList ready : List Ptr} :
    (drained prioList ready).Perm (ready ++ prioList) ↔ prioList ≠ [] ∨ ready = [] := by
  rcases prioList with _ | ⟨p, prioList⟩
  · rw [drained_nil, List.append_nil, List.nil_perm]
    simp
  · rw [drained_eq (List.cons_ne_nil p prioList)]
    exact iff_of_true (List.reverse_perm ready |>.append_right _) (.inl (List.cons_ne_nil p _))

/-- One round of the sorting loop, with the flag it leaves. -/
def sortRound (greater : Ptr → Ptr → Bool) (listSize : ℕ) (prioList : List Ptr) :
    List Ptr × Bool :=
  bubblePass greater (bubbleExchange · (listSize - 1)) (listSize - 1) 0 prioList true

/-- The call returns, its sorting loop ends, and `LPL` holds what it held and the arrivals in the
order of the key. -/
def ResortsReady (cfg : Config) (s : Shared) (key : SortKey) (prioList : List Ptr)
    (caller : SortCaller) : Prop :=
  ∃ s', (PP.machine cfg).ReturnsTo (tid caller) .go (returned caller) s
      ⟨.sortStart key prioList caller, [.lock .lpl]⟩ s' ∧
    LoopsTo (sortRound (key.greater s.image) (drained prioList (s.queue .lpl)).length)
      (drained prioList (s.queue .lpl)) (s'.queue .lpl) ∧
    (s'.queue .lpl).Pairwise (key.Ordered s'.image) ∧
    (s'.queue .lpl).Perm (s.queue .lpl ++ prioList) ∧
    s'.sem .lplEmpty = (s'.queue .lpl).length

/-- Re-sorting sorts and keeps everything, unless there is no arrival to a ready list that is not
empty. -/
theorem ready_resorted_iff (cfg : Config) (s : Shared) (key : SortKey) (prioList : List Ptr)
    (caller : SortCaller) (howner : s.owner .lpl = none)
    (hsem : s.sem .lplEmpty = (s.queue .lpl).length) :
    ResortsReady cfg s key prioList caller ↔ prioList ≠ [] ∨ s.queue .lpl = [] := by
  have hreturns : (PP.machine cfg).ReturnsTo (tid caller) .go (returned caller) s
      ⟨.sortStart key prioList caller, [.lock .lpl]⟩ _ := returnsTo_orderInsert howner hsem
  have hsorted := bubbleSort_perm (key.greater s.image) (drained prioList (s.queue .lpl))
  constructor
  · rintro ⟨s', hreturns', -, -, hperm, -⟩
    obtain rfl := hreturns.unique hreturns'
    rw [Shared.withReady_queue] at hperm
    exact drained_perm_iff.mp (hsorted.symm.trans hperm)
  · intro h
    refine ⟨_, hreturns, ?_, ?_, ?_, ?_⟩
    · rw [Shared.withReady_queue]
      exact loopsTo_bubbleSort (key.greater_asymm s.image) (key.greater_trans s.image) _
    · rw [Shared.withReady_queue, Shared.withReady_image]
      exact bubbleSort_ordered s.image key _
    · rw [Shared.withReady_queue]
      exact hsorted.trans (drained_perm_iff.mpr h)
    · rw [Shared.withReady_queue, Shared.withReady_sem]

def readyState (priority : Ptr → Int32) (ready : List Ptr) : Shared :=
  { (PP.start PP.smallConfig .pri fun _ => 0).shared with
    image := fun p => newImage p p (priority p) [] 0 }.withReady ready

theorem ready_resorted_three : ResortsReady PP.smallConfig
    (readyState (fun p => Int32.ofNat p) [1, 3]) .priority [2] .sts :=
  (ready_resorted_iff PP.smallConfig (readyState (fun p => Int32.ofNat p) [1, 3]) .priority [2] .sts
    rfl (by decide)).mpr (.inl (by decide))

/-- A reload of `PRI` empties the ready list. -/
theorem reload_loses_ready : ¬ ∀ (cfg : Config) (s : Shared) (key : SortKey)
    (prioList : List Ptr) (caller : SortCaller), s.owner .lpl = none →
      s.sem .lplEmpty = (s.queue .lpl).length → ResortsReady cfg s key prioList caller := by
  intro h
  obtain ⟨s', hreturns, -, -, hperm, -⟩ := h PP.smallConfig (readyState (fun _ => 0) [1])
    .priority [] (.configure fun _ => 0) rfl (by decide)
  obtain rfl := (returnsTo_orderInsert rfl (by decide)).unique hreturns
  exact absurd hperm.length_eq (by decide)

section Ties

def same (image : Ptr → TProcessImage) (key : SortKey) (p p' : Ptr) : Bool :=
  !key.greater image p p' && !key.greater image p' p

theorem same_eq_true {image : Ptr → TProcessImage} {p p' : Ptr} : same image key p p' = true ↔
    key.greater image p p' = false ∧ key.greater image p' p = false := by
  rw [same, Bool.and_eq_true, Bool.not_eq_true', Bool.not_eq_true']

theorem greater_of_same {image : Ptr → TProcessImage} {p q q' : Ptr}
    (h : same image key p q = true) (h' : same image key p q' = true) :
    key.greater image q q' = false :=
  key.greater_trans image _ _ _ (same_eq_true.mp h).2 (same_eq_true.mp h').1

/-- The processes of each key, read backwards, are the same list. -/
def TiesReversible (image : Ptr → TProcessImage) (key : SortKey) (ready : List Ptr) : Prop :=
  ∀ p, (ready.filter (same image key p)).reverse = ready.filter (same image key p)

/-- Equal keys keep their order, and the arrivals go behind. -/
def ServesInOrder (cfg : Config) (s : Shared) (key : SortKey) (prioList : List Ptr)
    (caller : SortCaller) : Prop :=
  ∃ s', (PP.machine cfg).ReturnsTo (tid caller) .go (returned caller) s
      ⟨.sortStart key prioList caller, [.lock .lpl]⟩ s' ∧
    ∀ p, (s'.queue .lpl).filter (same s.image key p) =
      (s.queue .lpl ++ prioList).filter (same s.image key p)

/-- A class of equals comes out as the draining loop has left it. -/
theorem resorted_filter {image : Ptr → TProcessImage} {k : Ptr → Bool} (hne : prioList ≠ [])
    (hk : ∀ p p', p ∈ ready ++ prioList → p' ∈ ready ++ prioList → k p = true → k p' = true →
      key.greater image p p' = false) :
    (bubbleSort (key.greater image) (drained prioList ready)).filter k =
      (ready.filter k).reverse ++ prioList.filter k := by
  have hperm : (drained prioList ready).Perm (ready ++ prioList) :=
    drained_perm_iff.mpr (.inl hne)
  have hmem : ∀ ps : List Ptr, ps ⊆ ready ++ prioList →
      ps.filter k = ps.filter fun p => k p && decide (p ∈ ready ++ prioList) := by
    intro ps hps
    refine List.filter_congr fun p hp => ?_
    rw [decide_eq_true (hps hp), Bool.and_true]
  have hclass : ∀ p p', (k p && decide (p ∈ ready ++ prioList)) = true →
      (k p' && decide (p' ∈ ready ++ prioList)) = true → key.greater image p p' = false := by
    intro p p' hp hp'
    rw [Bool.and_eq_true, decide_eq_true_iff] at hp hp'
    exact hk p p' hp.2 hp'.2 hp.1 hp'.1
  rw [hmem _ ((bubbleSort_perm _ _).trans hperm).subset, bubbleSort_filter hclass,
    ← hmem _ hperm.subset, drained_eq hne, List.filter_append, List.filter_reverse]

theorem servesInOrder_iff (howner : s.owner .lpl = none)
    (hsem : s.sem .lplEmpty = (s.queue .lpl).length) (hne : prioList ≠ []) :
    ServesInOrder cfg s key prioList caller ↔ TiesReversible s.image key (s.queue .lpl) := by
  have hreturns : (PP.machine cfg).ReturnsTo (tid caller) .go (returned caller) s
      ⟨.sortStart key prioList caller, [.lock .lpl]⟩ _ := returnsTo_orderInsert howner hsem
  have hfilter : ∀ p, (bubbleSort (key.greater s.image)
      (drained prioList (s.queue .lpl))).filter (same s.image key p) =
        ((s.queue .lpl).filter (same s.image key p)).reverse ++
          prioList.filter (same s.image key p) :=
    fun p => resorted_filter hne fun q q' _ _ => greater_of_same
  constructor
  · rintro ⟨s', hreturns', hserves⟩ p
    obtain rfl := hreturns.unique hreturns'
    have hp := hserves p
    rw [Shared.withReady_queue, hfilter, List.filter_append] at hp
    exact List.append_cancel_right hp
  · intro h
    refine ⟨_, hreturns, fun p => ?_⟩
    rw [Shared.withReady_queue, hfilter, h p, List.filter_append]

theorem same_self (image : Ptr → TProcessImage) (key : SortKey) (p : Ptr) :
    same image key p p = true := by
  cases hself : key.greater image p p with
  | false => exact same_eq_true.mpr ⟨hself, hself⟩
  | true => exact absurd (key.greater_asymm image p p hself) (by simp [hself])

theorem same_of_same {image : Ptr → TProcessImage} {p q q' : Ptr}
    (h : same image key p q = true) (h' : same image key p q' = true) :
    same image key q q' = true :=
  same_eq_true.mpr ⟨greater_of_same h h', greater_of_same h' h⟩

/-- The first of a list without repetitions is not also its last. -/
theorem length_le_one_of_reverse {ps : List Ptr} (hnodup : ps.Nodup) (h : ps.reverse = ps) :
    ps.length ≤ 1 := by
  rcases ps with _ | ⟨p, ps⟩
  · exact Nat.zero_le 1
  rcases List.eq_nil_or_concat ps with rfl | ⟨middle, q, rfl⟩
  · exact le_rfl
  · rw [List.concat_eq_append, List.reverse_cons, List.reverse_append, List.reverse_singleton,
      List.singleton_append, List.cons_append] at h
    obtain rfl : q = p := (List.cons.inj h).1
    exact absurd (List.nodup_cons.mp hnodup).1 (by simp)

/-- A process is in the list once: then no two of them may have the same key. -/
theorem tiesReversible_iff {image : Ptr → TProcessImage} (h : ready.Nodup) :
    TiesReversible image key ready ↔ ready.Pairwise fun p p' => same image key p p' = false := by
  constructor
  · intro hties
    rw [List.pairwise_iff_forall_sublist]
    intro p p' hsublist
    by_contra hsame
    rw [Bool.not_eq_false] at hsame
    have hpair : [p, p'].filter (same image key p) = [p, p'] := by
      rw [List.filter_eq_self, List.forall_mem_cons, List.forall_mem_singleton]
      exact ⟨same_self image key p, hsame⟩
    have hlength := (hsublist.filter (same image key p)).length_le
    rw [hpair] at hlength
    exact absurd (hlength.trans (length_le_one_of_reverse (h.filter _) (hties p))) (by simp)
  · intro hties p
    have hclass : (ready.filter (same image key p)).Pairwise fun _ _ => False := by
      refine (hties.filter _).imp_of_mem fun {q q'} hq hq' hdiffer => ?_
      have hsame := same_of_same (List.mem_filter.mp hq).2 (List.mem_filter.mp hq').2
      rw [hsame] at hdiffer
      cases hdiffer
    rcases hfilter : ready.filter (same image key p) with _ | ⟨q, _ | ⟨q', rest⟩⟩
    · rfl
    · rfl
    · rw [hfilter] at hclass
      exact absurd List.mem_cons_self ((List.pairwise_cons.mp hclass).1 q')

/-- Rounds of re-sorting. In between the heads of `LPL` are dispatched and the images change, but
the processes of `k` have the same key whenever they are sorted. -/
inductive Rounds (cfg : Config) (key : SortKey) (k : Ptr → Bool) (s : Shared) :
    List Ptr → Shared → Prop
  | start : Rounds cfg key k s [] s
  | dispatches {arrived : List Ptr} {s₁ s₂ : Shared} : Rounds cfg key k s arrived s₁ →
      s₂.queue .lpl <:+ s₁.queue .lpl → Rounds cfg key k s arrived s₂
  | sorts {arrived prioList : List Ptr} {caller : SortCaller} {s₁ s₂ : Shared} :
      Rounds cfg key k s arrived s₁ → s₁.owner .lpl = none →
      s₁.sem .lplEmpty = (s₁.queue .lpl).length → prioList ≠ [] →
      (∀ p p', p ∈ s₁.queue .lpl ++ prioList → p' ∈ s₁.queue .lpl ++ prioList → k p = true →
        k p' = true → same s₁.image key p p' = true) →
      TiesReversible s₁.image key (s₁.queue .lpl) →
      (PP.machine cfg).ReturnsTo (tid caller) .go (returned caller) s₁
        ⟨.sortStart key prioList caller, [.lock .lpl]⟩ s₂ →
      Rounds cfg key k s (arrived ++ prioList) s₂

/-- A class of equals is one of the lists that read the same backwards. -/
theorem class_reversible {image : Ptr → TProcessImage} {k : Ptr → Bool}
    (hties : TiesReversible image key ready)
    (hk : ∀ p p', p ∈ ready → p' ∈ ready → k p = true → k p' = true → same image key p p' = true) :
    (ready.filter k).reverse = ready.filter k := by
  rcases hfilter : ready.filter k with _ | ⟨p, rest⟩
  · rfl
  obtain ⟨hp, hkp⟩ : p ∈ ready ∧ k p = true :=
    List.mem_filter.mp (hfilter ▸ List.mem_cons_self)
  have hclass : (ready.filter (same image key p)).filter k = ready.filter k := by
    rw [List.filter_filter]
    refine List.filter_congr fun p' hp' => ?_
    cases hkp' : k p' with
    | false => rfl
    | true => rw [hk p p' hp hp' hkp hkp', Bool.and_true]
  rw [← hfilter, ← hclass, ← List.filter_reverse, hties p]

/-- Over any number of rounds the processes of a class leave the ready list in the order in which
they came. -/
theorem Rounds.suffix {k : Ptr → Bool} {arrived : List Ptr} (h : Rounds cfg key k s arrived s') :
    (s'.queue .lpl).filter k <:+ (s.queue .lpl ++ arrived).filter k := by
  induction h with
  | start => rw [List.append_nil]
  | dispatches _ hsuffix ih => exact (hsuffix.filter k).trans ih
  | @sorts arrived prioList caller s₁ s₂ _ howner hsem hne hk hties hreturns ih =>
    obtain rfl := (returnsTo_orderInsert howner hsem).unique hreturns
    have hgreater : ∀ p p', p ∈ s₁.queue .lpl ++ prioList → p' ∈ s₁.queue .lpl ++ prioList →
        k p = true → k p' = true → key.greater s₁.image p p' = false :=
      fun p p' hp hp' hkp hkp' => (same_eq_true.mp (hk p p' hp hp' hkp hkp')).1
    have hclass := class_reversible hties fun p p' hp hp' =>
      hk p p' (List.mem_append_left _ hp) (List.mem_append_left _ hp')
    rw [Shared.withReady_queue, resorted_filter hne hgreater, hclass, ← List.append_assoc,
      List.filter_append]
    obtain ⟨left, hleft⟩ := ih
    exact ⟨left, by rw [← List.append_assoc, hleft]⟩

/-- Equals are served first come first served by a call exactly when the order of those already
ready does not matter, and over every number of rounds in which it never does. -/
theorem ties_served_in_order (cfg : Config) (key : SortKey) :
    (∀ (s : Shared) (prioList : List Ptr) (caller : SortCaller), s.owner .lpl = none →
      s.sem .lplEmpty = (s.queue .lpl).length → prioList ≠ [] →
        (ServesInOrder cfg s key prioList caller ↔ TiesReversible s.image key (s.queue .lpl))) ∧
      ∀ (k : Ptr → Bool) (s : Shared) (arrived : List Ptr) (s' : Shared),
        Rounds cfg key k s arrived s' →
          (s'.queue .lpl).filter k <:+ (s.queue .lpl ++ arrived).filter k :=
  ⟨fun _ _ _ howner hsem hne => servesInOrder_iff howner hsem hne, fun _ _ _ _ h => h.suffix⟩

/-- Process 2 arrives to process 1 of the same priority. -/
theorem ties_served_in_order_two : ServesInOrder PP.smallConfig (readyState (fun _ => 0) [1])
    .priority [2] .sts :=
  ((ties_served_in_order PP.smallConfig .priority).1 (readyState (fun _ => 0) [1]) [2] .sts rfl
    (by decide) (by decide)).mpr ((tiesReversible_iff (List.nodup_singleton 1)).mpr
      (List.pairwise_singleton _ 1))

/-- Two processes of the same priority change places when a third one arrives. -/
theorem arrival_reverses_ready : ¬ ∀ (cfg : Config) (s : Shared) (key : SortKey)
    (prioList : List Ptr) (caller : SortCaller), s.owner .lpl = none →
      s.sem .lplEmpty = (s.queue .lpl).length → prioList ≠ [] →
        ServesInOrder cfg s key prioList caller := by
  intro h
  have hties := (servesInOrder_iff rfl (by decide) (by decide)).mp (h PP.smallConfig
    (readyState (fun _ => 0) [1, 2]) .priority [3] .sts rfl (by decide) (by decide))
  exact absurd (hties 1) (by decide)

end Ties

end OrderInsert
end Sisop

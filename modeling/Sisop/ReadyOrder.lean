import Sisop.LockDiscipline
import Sisop.ProcessReferences
import Sisop.QueueTokens
import Sisop.ThreadOperations

/-!
# The order of the ready list

Under `PRI` and `SPN` everything that goes into `LPL` goes through `orderInsertPrioList` or
`orderInsertSPNList`, which drain the list, sort and push everything back while they hold
`LPL_mutex`. The list is then sorted at every moment, as long as the keys of its members stay. The
priority does. `Tspn` is computed by `PROCER` after the dispatch, when a process that has blocked
may already be back.
-/

namespace Sisop

def SortKey.algorithm : SortKey → Algorithm
  | .priority => .pri
  | .tspn => .spn

def SortKey.round : SortKey → Round
  | .priority => .pri
  | .tspn => .spn

def SortKey.Ordered (image : Ptr → TProcessImage) : SortKey → Ptr → Ptr → Prop
  | .priority, p, p' => (image p).priority ≤ (image p').priority
  | .tspn, p, p' => (image p).Tspn ≤ (image p').Tspn

theorem SortKey.greater_eq_false {image : Ptr → TProcessImage} {key : SortKey} {p p' : Ptr} :
    key.greater image p p' = false ↔ key.Ordered image p p' := by
  cases key with
  | priority =>
    rw [SortKey.greater, decide_eq_false_iff_not]
    exact Int32.not_lt
  | tspn =>
    rw [SortKey.greater, decide_eq_false_iff_not]
    exact Rat.not_lt

theorem SortKey.ordered_of_greater {image : Ptr → TProcessImage} {key : SortKey} {p p' : Ptr}
    (h : key.greater image p p' = true) : key.Ordered image p' p := by
  cases key with
  | priority =>
    rw [SortKey.greater, decide_eq_true_iff] at h
    exact Int32.le_of_lt h
  | tspn =>
    rw [SortKey.greater, decide_eq_true_iff] at h
    exact Rat.le_of_lt h

theorem SortKey.ordered_trans {image : Ptr → TProcessImage} {key : SortKey} {p p' p'' : Ptr}
    (h : key.Ordered image p p') (h' : key.Ordered image p' p'') : key.Ordered image p p'' := by
  cases key with
  | priority => exact Int32.le_trans h h'
  | tspn => exact Rat.le_trans h h'

theorem SortKey.greater_asymm (key : SortKey) (image : Ptr → TProcessImage) (p p' : Ptr)
    (h : key.greater image p p' = true) : key.greater image p' p = false :=
  SortKey.greater_eq_false.mpr (SortKey.ordered_of_greater h)

theorem SortKey.greater_trans (key : SortKey) (image : Ptr → TProcessImage) (p p' p'' : Ptr)
    (h : key.greater image p p' = false) (h' : key.greater image p' p'' = false) :
    key.greater image p p'' = false := by
  rw [SortKey.greater_eq_false] at h h' ⊢
  exact SortKey.ordered_trans h h'

theorem bubbleSort_ordered (image : Ptr → TProcessImage) (key : SortKey) (ps : List Ptr) :
    (bubbleSort (key.greater image) ps).Pairwise (key.Ordered image) :=
  (bubbleSort_sorted (key.greater_asymm image) (key.greater_trans image) ps).imp
    SortKey.greater_eq_false.mp

namespace PP

variable {cfg : Config} {s s' : Shared} {pc : Label} {th : Thread Operation Label} {key : SortKey}

/-- The control points of a program that sorts by nothing but `key`. -/
def SortsBy (key : SortKey) : Label → Prop
  | .round kind _ _ | .collect kind _ _ _ | .takeIn kind _ _ _ | .popQueue kind _ _ _ =>
    kind = key.round
  | .sortStart key' _ _ | .drain key' _ _ _ => key' = key
  | .setALG ALG _ => ALG = key.algorithm
  | _ => True

def pushedBack : List Operation → List Ptr
  | [] => []
  | .enqueue .lpl p :: ops => p :: pushedBack ops
  | _ :: ops => pushedBack ops

/-- The control points at which a thread works on `LPL`. -/
def atReady : Label → Bool
  | .popReady | .sortStart _ _ _ | .drain _ _ _ _ => true
  | _ => false

def toDrain : Label → Option ℕ
  | .drain _ remaining _ _ => some remaining
  | _ => none

/-- The thread has locked `LPL_mutex` and works on `LPL`. -/
def HoldsReady (th : Thread Operation Label) : Prop :=
  .lock .lpl ∉ th.ops ∧ (atReady th.pc = true ∨ pushedBack th.ops ≠ [])

theorem pushedBack_eq_nil {ops : List Operation} (h : ∀ p, .enqueue .lpl p ∉ ops) :
    pushedBack ops = [] := by
  induction ops with
  | nil => rfl
  | cons op ops ih =>
    have hrest := ih fun p hmem => h p (List.mem_cons_of_mem _ hmem)
    unfold pushedBack
    split
    case h_1 => rfl
    case h_2 p ops' heq =>
      cases heq
      exact absurd List.mem_cons_self (h p)
    case h_3 ops' _ heq =>
      cases heq
      exact hrest

theorem mem_of_mem_pushedBack {ops : List Operation} {p : Ptr} (h : p ∈ pushedBack ops) :
    .enqueue .lpl p ∈ ops := by
  by_contra hnot
  induction ops with
  | nil => cases h
  | cons op ops ih =>
    unfold pushedBack at h
    split at h
    case h_1 => cases h
    case h_2 p' ops' heq =>
      cases heq
      rcases List.mem_cons.mp h with rfl | h
      · exact hnot List.mem_cons_self
      · exact ih h fun hmem => hnot (List.mem_cons_of_mem _ hmem)
    case h_3 heq =>
      cases heq
      exact ih h fun hmem => hnot (List.mem_cons_of_mem _ hmem)

theorem pushedBack_enqueues (ps : List Ptr) (ops : List Operation) :
    pushedBack (ps.map (.enqueue .lpl) ++ ops) = ps ++ pushedBack ops := by
  induction ps with
  | nil => rfl
  | cons p ps ih => exact congrArg (p :: ·) ih

inductive ReadyStep (key : SortKey) (s : Shared) (pc : Label) (s' : Shared)
    (th : Thread Operation Label) : Prop
  | other : s'.queue .lpl = s.queue .lpl → pushedBack th.ops = [] →
      (atReady th.pc = true →
        toDrain th.pc = none ∧ .lock .lpl ∈ th.ops ∧ .unlock .lpl ∉ th.ops) →
      ReadyStep key s pc s' th
  | takes (p : Ptr) : pc = .popReady → s.queue .lpl = p :: s'.queue .lpl →
      pushedBack th.ops = [] → atReady th.pc = false → ReadyStep key s pc s' th
  | sizes (prioList : List Ptr) (caller : SortCaller) : pc = .sortStart key prioList caller →
      s' = s → th = ⟨.drain key (s.queue .lpl).length prioList caller, []⟩ →
      ReadyStep key s pc s' th
  | drains (remaining : ℕ) (prioList : List Ptr) (caller : SortCaller) (p : Ptr)
      (ready : List Ptr) : pc = .drain key (remaining + 1) prioList caller →
      s.queue .lpl = p :: ready → s' = (s.tryWait .lplEmpty).setQueue .lpl ready →
      th = ⟨.drain key (if 0 < s.sem .lplEmpty then remaining else 0)
        (listAddInIndex prioList 0 p) caller, []⟩ → ReadyStep key s pc s' th
  | sorts (prioList : List Ptr) (caller : SortCaller) : pc = .drain key 0 prioList caller →
      s' = s → th = OrderInsert.finish (bubbleSort (key.greater s.image) prioList) caller →
      ReadyStep key s pc s' th

theorem readyStep_orderInsert (h : OrderInsert.control s pc = some (s', th))
    (hpc : SortsBy key pc) : ReadyStep key s pc s' th := by
  unfold OrderInsert.control at h
  split at h
  case h_1 key' prioList caller =>
    obtain rfl : key' = key := hpc
    cases h
    exact .sizes prioList caller rfl rfl rfl
  case h_2 key' prioList caller =>
    obtain rfl : key' = key := hpc
    cases h
    exact .sorts prioList caller rfl rfl rfl
  case h_3 key' remaining prioList caller =>
    obtain rfl : key' = key := hpc
    unfold OrderInsert.drainOne at h
    split at h
    case h_1 => cases h
    case h_2 p ready hqueue =>
      cases h
      exact .drains remaining prioList caller p ready rfl hqueue rfl rfl
  case h_4 => cases h

theorem readyStep_sts {c : Choice} (h : STS.control s pc c = some (s', th))
    (hpc : SortsBy key pc) : ReadyStep key s pc s' th := by
  unfold STS.control at h
  split at h
  case h_1 =>
    refine .other ?_ ?_ ?_ <;> split at h <;> cases h <;> simp [STS.startRound, pushedBack, atReady]
  case h_2 kind i prioList =>
    obtain rfl : kind = key.round := hpc
    split at h
    case h_1 =>
      cases h
      exact .other rfl rfl (by simp [atReady])
    case h_2 =>
      cases h
      cases key <;> exact .other rfl rfl (by simp [STS.endRound, SortKey.round, toDrain])
  case h_3 =>
    split_ifs at h <;> cases h <;> exact .other rfl rfl (by simp [atReady])
  case h_4 =>
    cases h
    exact .other rfl rfl (by simp [atReady])
  case h_5 kind i name prioList =>
    obtain rfl : kind = key.round := hpc
    split at h
    case h_1 => cases h
    case h_2 p ps hqueue =>
      cases h
      have hqueue' : (s.setQueue name.queue ps).queue .lpl = s.queue .lpl := by
        cases name <;> rfl
      cases key <;> exact .other hqueue' rfl (by simp [STS.takeOver, SortKey.round, atReady])
  case h_6 => exact readyStep_orderInsert h hpc
  case h_7 => cases h

theorem readyStep_configure {c : Choice} (h : Configure.control s pc c = some (s', th))
    (hpc : SortsBy key pc) : ReadyStep key s pc s' th := by
  unfold Configure.control at h
  split at h
  case h_1 =>
    cases h
    exact .other rfl rfl (by simp [atReady])
  case h_2 ALG priorities =>
    cases h
    cases ALG <;> exact .other rfl rfl (by simp [Configure.afterALG, atReady, toDrain])
  case h_3 | h_4 =>
    cases h
    exact .other rfl rfl (by simp [atReady])
  case h_5 => exact readyStep_orderInsert h hpc
  case h_6 => cases h

theorem readyStep_procer (h : PROCER.Moves cfg s pc s' th) : ReadyStep key s pc s' th := by
  have hpushed : pushedBack th.ops = [] := by
    refine pushedBack_eq_nil fun p hmem => ?_
    cases operationOf_procer h _ hmem
  cases h with
  | @pop p ps code hqueue =>
    exact .takes p rfl (by simpa [Shared.setQueue] using hqueue) hpushed rfl
  | run => exact .other rfl hpushed (by simp [atReady])
  | _ =>
    refine .other rfl hpushed fun _ => ?_
    simp [PROCER.finished, PROCER.suspended, PROCER.endOfQuantum, PROCER.wait, logWrite, sendMsg,
      enqueueForSTS, Queue.mutex, toDrain]

theorem readyStep_control {t : Tid} {c : Choice} (h : PP.control cfg t pc c s = some (s', th))
    (hhome : homeOf pc t) (hpc : SortsBy key pc) : ReadyStep key s pc s' th := by
  have hmoves := moves_of_control h
  have hops := operationOf_control hmoves hhome
  cases hmoves with
  | sts => exact readyStep_sts h hpc
  | configure => exact readyStep_configure h hpc
  | procer hmoves => exact readyStep_procer hmoves
  | ltsConex hmoves =>
    have hpushed : pushedBack th.ops = [] := by
      refine pushedBack_eq_nil fun p hmem => ?_
      cases hops _ hmem
    cases hmoves <;> exact .other rfl hpushed (by simp [atReady])
  | ltsNew =>
    exact .other rfl rfl (by simp [atReady])
  | raise => exact .other rfl rfl (by simp [atReady])
  | ioThread =>
    refine .other rfl (pushedBack_eq_nil fun p hmem => ?_) (by simp [atReady])
    cases hops _ hmem

theorem sortsBy_orderInsert (h : OrderInsert.control s pc = some (s', th)) (hpc : SortsBy key pc)
    (hALG : s.ALG = key.algorithm) : SortsBy key th.pc ∧ s'.ALG = key.algorithm := by
  unfold OrderInsert.control at h
  split at h
  case h_1 =>
    cases h
    exact ⟨hpc, hALG⟩
  case h_2 key' prioList caller =>
    cases h
    cases caller <;> exact ⟨trivial, hALG⟩
  case h_3 =>
    unfold OrderInsert.drainOne at h
    split at h
    case h_1 => cases h
    case h_2 =>
      cases h
      exact ⟨hpc, hALG⟩
  case h_4 => cases h

def keepsAlgorithm (key : SortKey) (a : Step) : Bool :=
  match a.2 with
  | .reload ALG _ => ALG == key.algorithm
  | _ => true

theorem sortsBy_control {t : Tid} {c : Choice} (h : PP.control cfg t pc c s = some (s', th))
    (hpc : SortsBy key pc) (hALG : s.ALG = key.algorithm)
    (hreload : keepsAlgorithm key (t, c) = true) :
    SortsBy key th.pc ∧ s'.ALG = key.algorithm := by
  cases t with
  | sts =>
    change STS.control s pc c = some (s', th) at h
    unfold STS.control at h
    split at h
    case h_1 =>
      rw [hALG] at h
      cases key <;> cases h <;> exact ⟨rfl, hALG⟩
    case h_2 kind i prioList =>
      obtain rfl : kind = key.round := hpc
      split at h
      case h_1 =>
        cases h
        exact ⟨rfl, hALG⟩
      case h_2 =>
        cases h
        cases key <;> exact ⟨rfl, hALG⟩
    case h_3 => split_ifs at h <;> cases h <;> exact ⟨hpc, hALG⟩
    case h_4 =>
      cases h
      exact ⟨hpc, hALG⟩
    case h_5 kind i name prioList =>
      obtain rfl : kind = key.round := hpc
      split at h
      case h_1 => cases h
      case h_2 =>
        cases h
        cases key <;> exact ⟨rfl, hALG⟩
    case h_6 => exact sortsBy_orderInsert h hpc hALG
    case h_7 => cases h
  | configure =>
    change Configure.control s pc c = some (s', th) at h
    unfold Configure.control at h
    split at h
    case h_1 =>
      cases h
      exact ⟨by simpa [keepsAlgorithm, SortsBy] using hreload, hALG⟩
    case h_2 ALG priorities =>
      obtain rfl : ALG = key.algorithm := hpc
      cases h
      cases key <;> exact ⟨rfl, rfl⟩
    case h_3 | h_4 =>
      cases h
      exact ⟨trivial, hALG⟩
    case h_5 => exact sortsBy_orderInsert h hpc hALG
    case h_6 => cases h
  | ltsConex =>
    cases moves_of_control h with
    | ltsConex h => cases h <;> exact ⟨trivial, hALG⟩
  | procer =>
    cases moves_of_control h with
    | procer h => cases h <;> exact ⟨trivial, hALG⟩
  | _ =>
    cases moves_of_control h
    exact ⟨trivial, hALG⟩

/-- A thread that pushes images into `LPL` does so with all of them at once, under the lock. -/
structure ReadyShape (key : SortKey) (th : Thread Operation Label) : Prop where
  sorts : SortsBy key th.pc
  front : ∃ ops, th.ops = (pushedBack th.ops).map (.enqueue .lpl) ++ ops ∧ pushedBack ops = [] ∧
    (pushedBack th.ops ≠ [] → .lock .lpl ∉ ops)
  locked : atReady th.pc = true → .unlock .lpl ∉ th.ops
  draining : toDrain th.pc ≠ none → th.ops = []

theorem pushedBack_cons_ne_nil {op : Operation} {ops : List Operation} (h : pushedBack ops ≠ []) :
    pushedBack (op :: ops) ≠ [] := by
  unfold pushedBack
  split
  case h_1 heq => cases heq
  case h_2 => exact List.cons_ne_nil _ _
  case h_3 heq =>
    cases heq
    exact h

theorem readyShape_tail {op : Operation} {ops : List Operation}
    (h : ReadyShape key ⟨pc, op :: ops⟩) : ReadyShape key ⟨pc, ops⟩ := by
  refine ⟨h.sorts, ?_, fun hready hmem => h.locked hready (List.mem_cons_of_mem _ hmem),
    fun hdrain => absurd (h.draining hdrain) (List.cons_ne_nil _ _)⟩
  obtain ⟨rest, hops, hrest, hlock⟩ := h.front
  dsimp only at hops hlock ⊢
  cases hpushed : pushedBack (op :: ops) with
  | nil =>
    rw [hpushed] at hops
    have hnil : pushedBack ops = [] := by
      by_contra hne
      exact pushedBack_cons_ne_nil hne hpushed
    exact ⟨ops, by rw [hnil]; rfl, hnil, fun hne => absurd hnil hne⟩
  | cons p ps =>
    rw [hpushed] at hops hlock
    rw [List.map_cons, List.cons_append] at hops
    obtain ⟨-, rfl⟩ := List.cons.inj hops
    rw [pushedBack_enqueues, hrest, List.append_nil]
    exact ⟨rest, rfl, hrest, fun _ => hlock (List.cons_ne_nil _ _)⟩

theorem readyShape_of_idle (hsorts : SortsBy key th.pc) (hpushed : pushedBack th.ops = [])
    (hlocked : atReady th.pc = true → .unlock .lpl ∉ th.ops)
    (hdraining : toDrain th.pc ≠ none → th.ops = []) : ReadyShape key th :=
  ⟨hsorts, ⟨th.ops, by rw [hpushed]; rfl, hpushed, fun hne => absurd hpushed hne⟩, hlocked,
    hdraining⟩

theorem atReady_of_toDrain (h : toDrain pc ≠ none) : atReady pc = true := by
  cases pc with
  | drain => rfl
  | _ => exact absurd rfl h

theorem pushedBack_finish (ps : List Ptr) (caller : SortCaller) :
    pushedBack (OrderInsert.finish ps caller).ops = ps := by
  cases caller with
  | sts =>
    rw [OrderInsert.finish, List.append_assoc, pushedBack_enqueues]
    exact List.append_nil ps
  | configure =>
    rw [OrderInsert.finish, pushedBack_enqueues]
    exact List.append_nil ps

theorem readyShape_finish (key : SortKey) (ps : List Ptr) (caller : SortCaller) :
    ReadyShape key (OrderInsert.finish ps caller) := by
  have hpushed := pushedBack_finish ps caller
  cases caller with
  | sts =>
    refine ⟨trivial, ⟨[.unlock .lpl] ++ STS.wait, ?_, rfl, by simp [STS.wait]⟩,
      by simp [OrderInsert.finish, atReady], by simp [OrderInsert.finish, toDrain]⟩
    rw [hpushed, OrderInsert.finish, List.append_assoc]
  | configure priorities =>
    refine ⟨trivial, ⟨[.unlock .lpl], ?_, rfl, by simp⟩, by simp [OrderInsert.finish, atReady],
      by simp [OrderInsert.finish, toDrain]⟩
    rw [hpushed, OrderInsert.finish]

theorem readyShape_control (h : ReadyStep key s pc s' th) (hsorts : SortsBy key th.pc) :
    ReadyShape key th := by
  cases h with
  | other hqueue hpushed hready =>
    refine readyShape_of_idle hsorts hpushed (fun h => (hready h).2.2) fun hdrain => ?_
    exact absurd (hready (atReady_of_toDrain hdrain)).1 hdrain
  | takes p hpop hqueue hpushed hready =>
    refine readyShape_of_idle hsorts hpushed (by simp [hready]) fun hdrain => ?_
    rw [atReady_of_toDrain hdrain] at hready
    cases hready
  | sizes prioList caller hstart hs hth =>
    rw [hth]
    exact readyShape_of_idle rfl rfl (by simp) (by simp)
  | drains remaining prioList caller p ready hdrain hqueue hs hth =>
    rw [hth]
    exact readyShape_of_idle rfl rfl (by simp) (by simp)
  | sorts prioList caller hdrain hs hth =>
    rw [hth]
    exact readyShape_finish key _ caller

theorem readyShape_initial (key : SortKey) (t : Tid) : ReadyShape key (initialThread t) := by
  have hpushed : pushedBack (initialThread t).ops = [] := by cases t <;> rfl
  refine readyShape_of_idle ?_ hpushed ?_ ?_
  · cases t <;> trivial
  · cases t <;> simp [initialThread, atReady, PROCER.wait]
  · cases t <;> simp [initialThread, toDrain]

theorem queue_lpl_exec {t : Tid} {op : Operation} (h : op.exec t s = some s')
    (ops : List Operation) :
    s'.queue .lpl ++ pushedBack ops = s.queue .lpl ++ pushedBack (op :: ops) := by
  cases op with
  | lock m | unlock m | wait m =>
    simp only [Operation.exec] at h
    split_ifs at h
    cases h
    rfl
  | enqueue q p =>
    cases h
    cases q <;> simp [pushedBack, Shared.post, Shared.setQueue]
  | _ =>
    cases h
    rfl

theorem owner_exec_other {t u : Tid} {op : Operation} (h : op.exec t s = some s') (hu : u ≠ t)
    {m : Mutex} (howner : s.owner m = some u) : s'.owner m = some u := by
  cases op with
  | lock m' =>
    simp only [Operation.exec] at h
    split_ifs at h with hfree
    cases h
    have hne : m ≠ m' := by
      rintro rfl
      rw [hfree] at howner
      cases howner
    exact (Function.update_of_ne hne ..).trans howner
  | unlock m' =>
    simp only [Operation.exec] at h
    split_ifs at h with hheld
    cases h
    have hne : m ≠ m' := by
      rintro rfl
      exact hu (Option.some.inj (howner.symm.trans hheld))
    exact (Function.update_of_ne hne ..).trans howner
  | wait sem =>
    simp only [Operation.exec] at h
    split_ifs at h
    cases h
    exact howner
  | _ =>
    cases h
    exact howner

/-- A thread that works on `LPL` after an operation has just locked it, or has done so before. -/
theorem owner_exec_self {t : Tid} {op : Operation} {ops : List Operation}
    (h : op.exec t s = some s') (hshape : ReadyShape key ⟨pc, op :: ops⟩)
    (howns : HoldsReady ⟨pc, op :: ops⟩ → s.owner .lpl = some t) (hholds : HoldsReady ⟨pc, ops⟩) :
    s'.owner .lpl = some t := by
  obtain ⟨hlock, hready⟩ := hholds
  have hready' : atReady pc = true ∨ pushedBack (op :: ops) ≠ [] :=
    hready.imp_right pushedBack_cons_ne_nil
  have howner : op ≠ .lock .lpl → s.owner .lpl = some t := fun hne =>
    howns ⟨fun hmem => (List.mem_cons.mp hmem).elim (fun heq => hne heq.symm) hlock, hready'⟩
  have hunlock : op ≠ .unlock .lpl := by
    rintro rfl
    rcases hready with hready | hpushed
    · exact hshape.locked hready List.mem_cons_self
    · obtain ⟨rest, hops, -⟩ := hshape.front
      dsimp only at hops
      cases hback : pushedBack (.unlock .lpl :: ops) with
      | nil => exact pushedBack_cons_ne_nil hpushed hback
      | cons p ps =>
        rw [hback] at hops
        cases hops
  cases op with
  | lock m =>
    simp only [Operation.exec] at h
    split_ifs at h
    cases h
    by_cases heq : m = .lpl
    · simp [Shared.setOwner, heq]
    · exact (Function.update_of_ne (Ne.symm heq) ..).trans (howner (by simpa using heq))
  | unlock m =>
    simp only [Operation.exec] at h
    split_ifs at h
    cases h
    have hne : m ≠ .lpl := fun heq => hunlock (heq ▸ rfl)
    exact (Function.update_of_ne (Ne.symm hne) ..).trans (howner (by simp))
  | wait sem =>
    simp only [Operation.exec] at h
    split_ifs at h
    cases h
    exact howner (by simp)
  | _ =>
    cases h
    exact howner (by simp)

theorem holdsReady_of_toDrain (h : toDrain th.pc ≠ none) (hshape : ReadyShape key th) :
    HoldsReady th := by
  refine ⟨?_, .inl (atReady_of_toDrain h)⟩
  rw [hshape.draining h]
  exact List.not_mem_nil

theorem holdsReady_of_pushedBack (h : pushedBack th.ops ≠ []) (hshape : ReadyShape key th) :
    HoldsReady th := by
  refine ⟨fun hmem => ?_, .inr h⟩
  obtain ⟨rest, hops, -, hlock⟩ := hshape.front
  rw [hops, List.mem_append] at hmem
  rcases hmem with hmem | hmem
  · obtain ⟨p, -, heq⟩ := List.mem_map.mp hmem
    cases heq
  · exact hlock h hmem

/-- Who works on `LPL` after a control step has done so before. -/
theorem holdsReady_control (h : ReadyStep key s pc s' th) (hholds : HoldsReady th) :
    HoldsReady ⟨pc, []⟩ := by
  refine ⟨List.not_mem_nil, .inl ?_⟩
  cases h with
  | other hqueue hpushed hready =>
    rcases hholds.2 with hpc | hne
    · exact absurd (hready hpc).2.1 hholds.1
    · exact absurd hpushed hne
  | takes p hpop => rw [hpop]; rfl
  | sizes prioList caller hstart => rw [hstart]; rfl
  | drains remaining prioList caller p ready hdrain => rw [hdrain]; rfl
  | sorts prioList caller hdrain => rw [hdrain]; rfl

/-- A draining step without a token leaves the semaphore with one too many. -/
theorem queueTokens_control_le {t : Tid} (h : Moves cfg s t pc s' th) :
    (queueTokens .lpl).held s + (queueTokens .lpl).pc pc ≤
      (queueTokens .lpl).held s' + (queueTokens .lpl).thread th := by
  by_cases htoken : ∀ key remaining prioList caller,
      pc = .drain key (remaining + 1) prioList caller → 0 < s.sem .lplEmpty
  · exact (queueTokens_control h fun _ => htoken).ge
  · push Not at htoken
    obtain ⟨key, remaining, prioList, caller, rfl, hzero⟩ := htoken
    have hdrain : OrderInsert.Moves s (.drain key (remaining + 1) prioList caller) s' th := by
      cases h with
      | ltsConex h | procer h => cases h
      | sts h | configure h =>
        cases h with
        | orderInsert h => exact h
    cases hdrain with
    | drainOne _ _ _ _ _ hqueue =>
      simp [queueTokens, popsFrom, Ledger.thread, Shared.setQueue, Shared.tryWait, Queue.empty,
        hqueue]
      omega

theorem enter_priority (image : TProcessImage) :
    (Exec.enter image).1.processImage.priority = image.priority := by
  obtain ⟨stack, elements, heq⟩ := Exec.stackExecution_eq (Exec.atEntry image)
  rw [Exec.enter, heq]
  rfl

/-- Only the estimate after a dispatch changes an image that has been built. -/
theorem built_control {t : Tid} {p : Ptr} (h : Moves cfg s t pc s' th) (hp : p < s.allocated) :
    p < s'.allocated ∧ (s'.image p = s.image p ∨ ∃ code e, t = .procer ∧ pc = .execute p code e ∧
      e.point = .returned ∧ s'.image p = PROCER.estimate cfg e) := by
  cases h with
  | ltsConex h =>
    cases h with
    | admission | delay =>
      exact ⟨hp.trans (Nat.lt_succ_self _), .inl (Function.update_of_ne hp.ne ..)⟩
    | _ => exact ⟨hp, .inl rfl⟩
  | sts h | configure h =>
    cases h with
    | orderInsert h => cases h <;> exact ⟨hp, .inl rfl⟩
    | _ => exact ⟨hp, .inl rfl⟩
  | procer h =>
    cases h with
    | pop | run => exact ⟨hp, .inl rfl⟩
    | @finished p' code e hpoint | @blocked p' code e hpoint | @suspended p' code e hpoint
    | @endOfQuantum p' code e hpoint | @dropped p' code e hpoint =>
      refine ⟨hp, ?_⟩
      by_cases heq : p = p'
      · subst heq
        exact .inr ⟨code, e, rfl, rfl, hpoint, Function.update_self ..⟩
      · exact .inl (Function.update_of_ne heq ..)
  | _ => exact ⟨hp, .inl rfl⟩

section Runs

variable {st st' : PP} {a : Step} {priorities : QueueName → ℤ}

theorem queueTokens_le_next (h : next cfg st a = some st') :
    (queueTokens .lpl).total cfg.threads st ≤ (queueTokens .lpl).total cfg.threads st' := by
  have hmem := (next_eq_some h).1
  by_cases hops : (st.thread a.1).ops = []
  · rcases next_cases h with ⟨op, ops, s, hops', -⟩ | ⟨s, th, -, hmoves, rfl⟩
    · rw [hops] at hops'
      cases hops'
    · have hle := queueTokens_control_le hmoves
      have htotal := Ledger.total_control (L := queueTokens .lpl) hmem hops
        (show (queueTokens .lpl).held s + (queueTokens .lpl).thread th + 0 =
          (queueTokens .lpl).held st.shared + (queueTokens .lpl).pc (st.thread a.1).pc +
            ((queueTokens .lpl).held s + (queueTokens .lpl).thread th -
              ((queueTokens .lpl).held st.shared + (queueTokens .lpl).pc (st.thread a.1).pc)) by
          omega)
      omega
  · exact (total_next queueTokens_exec (fun _ _ hnil _ => absurd hnil hops) h).ge

def readyLine (st : PP) : List Ptr :=
  st.shared.queue .lpl ++ pushedBack (st.thread .sts).ops ++ pushedBack (st.thread .configure).ops

/-- A reachable state of a program that sorts by nothing but `key`. -/
structure InOrder (cfg : Config) (key : SortKey) (priorities : QueueName → ℤ) (st : PP) :
    Prop where
  run : RunsTo (next cfg) (fun _ _ => True) (start cfg key.algorithm priorities) st
  ALG : st.shared.ALG = key.algorithm
  shape : ∀ t, ReadyShape key (st.thread t)
  owns : ∀ t, HoldsReady (st.thread t) → st.shared.owner .lpl = some t
  tokens : 0 ≤ (queueTokens .lpl).total cfg.threads st
  drained : ∀ t remaining, toDrain (st.thread t).pc = some remaining →
    (st.shared.queue .lpl).length = remaining
  running : ∀ p code e, (st.thread .procer).pc = .execute p code e → p < st.shared.allocated ∧
    e.processImage.priority = (st.shared.image p).priority
  sorted : (readyLine st).Pairwise (key.Ordered st.shared.image)

theorem InOrder.alone (h : InOrder cfg key priorities st) {t u : Tid}
    (ht : HoldsReady (st.thread t)) (hu : HoldsReady (st.thread u)) : t = u :=
  Option.some.inj ((h.owns t ht).symm.trans (h.owns u hu))

theorem InOrder.nil_of_holds (h : InOrder cfg key priorities st) {t u : Tid}
    (ht : HoldsReady (st.thread t)) (hu : u ≠ t) : pushedBack (st.thread u).ops = [] := by
  by_contra hne
  exact hu (h.alone (holdsReady_of_pushedBack hne (h.shape u)) ht)

theorem InOrder.not_draining (h : InOrder cfg key priorities st) {t u : Tid}
    (ht : HoldsReady (st.thread t)) (hu : u ≠ t) : toDrain (st.thread u).pc = none := by
  by_contra hne
  exact hu (h.alone (holdsReady_of_toDrain hne (h.shape u)) ht)

/-- The draining loop finds a token for every image but, perhaps, the last one. -/
theorem InOrder.length_le (h : InOrder cfg key priorities st) :
    (st.shared.queue .lpl).length ≤ st.shared.sem .lplEmpty + 1 := by
  have htokens := h.tokens
  rw [queueTokens_total (tokenShape_run h.run)] at htokens
  have hhand : tokenInHand .lpl (st.thread (consumer .lpl)) ≤ 1 := by
    rw [tokenInHand]
    split_ifs <;> simp
  simp only [queueTokens, Queue.empty] at htokens
  omega

theorem readyLine_exec {op : Operation} {ops : List Operation}
    (hst : InOrder cfg key priorities st) (hops : (st.thread a.1).ops = op :: ops)
    (hexec : op.exec a.1 st.shared = some s) :
    readyLine ⟨s, Function.update st.thread a.1 ⟨(st.thread a.1).pc, ops⟩⟩ = readyLine st := by
  have hqueue := queue_lpl_exec hexec ops
  have hnil : pushedBack (op :: ops) = [] → s.queue .lpl = st.shared.queue .lpl ∧
      pushedBack ops = [] := by
    intro hnil
    have hback : pushedBack ops = [] := by
      by_contra hne
      exact pushedBack_cons_ne_nil hne hnil
    rw [hnil, hback, List.append_nil, List.append_nil] at hqueue
    exact ⟨hqueue, hback⟩
  obtain ⟨t, c⟩ := a
  dsimp only [readyLine] at hops hexec ⊢
  by_cases hsts : t = .sts
  · subst hsts
    rw [Function.update_self, Function.update_of_ne (show Tid.configure ≠ .sts by decide), hops]
    dsimp only
    rw [hqueue]
  · by_cases hconfigure : t = .configure
    · subst hconfigure
      rw [Function.update_self, Function.update_of_ne (show Tid.sts ≠ .configure by decide), hops]
      dsimp only
      by_cases hback : pushedBack (op :: ops) = []
      · rw [(hnil hback).1, (hnil hback).2, hback]
      · have hsts := hst.nil_of_holds (holdsReady_of_pushedBack (by rwa [hops])
          (hst.shape .configure)) (show Tid.sts ≠ .configure by decide)
        rw [hsts, List.append_nil, List.append_nil, hqueue]
    · rw [Function.update_of_ne (Ne.symm hsts), Function.update_of_ne (Ne.symm hconfigure)]
      have hback : pushedBack (op :: ops) = [] := by
        refine pushedBack_eq_nil fun p hmem => ?_
        rw [← hops] at hmem
        cases (operationOf_run hst.run t).2 _ hmem with
        | ready => exact hsts rfl
        | resorted => exact hconfigure rfl
      rw [(hnil hback).1]

theorem InOrder.exec {op : Operation} {ops : List Operation}
    (hst : InOrder cfg key priorities st) (hops : (st.thread a.1).ops = op :: ops)
    (hexec : op.exec a.1 st.shared = some s)
    (hnext : next cfg st a =
      some ⟨s, Function.update st.thread a.1 ⟨(st.thread a.1).pc, ops⟩⟩) :
    InOrder cfg key priorities ⟨s, Function.update st.thread a.1 ⟨(st.thread a.1).pc, ops⟩⟩ := by
  have hunwritten := unwritten_exec hexec
  have hthread : st.thread a.1 = ⟨(st.thread a.1).pc, op :: ops⟩ := by rw [← hops]
  have hshape := hst.shape a.1
  have howns := hst.owns a.1
  rw [hthread] at hshape howns
  have hpc : ∀ t, (Function.update st.thread a.1 ⟨(st.thread a.1).pc, ops⟩ t).pc =
      (st.thread t).pc := by
    intro t
    by_cases ht : t = a.1
    · rw [ht, Function.update_self]
    · rw [Function.update_of_ne ht]
  refine ⟨hst.run.step a trivial hnext, hunwritten.ALG.trans hst.ALG, fun t => ?_,
    fun t hholds => ?_, hst.tokens.trans (queueTokens_le_next hnext), fun t remaining hdrain => ?_,
    ?_, ?_⟩
  · dsimp only
    by_cases ht : t = a.1
    · rw [ht, Function.update_self]
      exact readyShape_tail hshape
    · rw [Function.update_of_ne ht]
      exact hst.shape t
  · dsimp only at hholds ⊢
    by_cases ht : t = a.1
    · rw [ht, Function.update_self] at hholds
      rw [ht]
      exact owner_exec_self hexec hshape howns hholds
    · rw [Function.update_of_ne ht] at hholds
      exact owner_exec_other hexec ht (hst.owns t hholds)
  · dsimp only at hdrain ⊢
    rw [hpc] at hdrain
    have hne : toDrain (st.thread t).pc ≠ none := by simp [hdrain]
    have ht : a.1 ≠ t := by
      rintro rfl
      rw [(hst.shape a.1).draining hne] at hops
      cases hops
    have hback := hst.nil_of_holds (holdsReady_of_toDrain hne (hst.shape t)) ht
    have hqueue := queue_lpl_exec hexec ops
    rw [hops] at hback
    have hback' : pushedBack ops = [] := by
      by_contra hne
      exact pushedBack_cons_ne_nil hne hback
    rw [hback, hback', List.append_nil, List.append_nil] at hqueue
    rw [hqueue]
    exact hst.drained t remaining hdrain
  · intro p code e hexecute
    dsimp only at hexecute ⊢
    rw [hpc] at hexecute
    rw [hunwritten.image, hunwritten.allocated]
    exact hst.running p code e hexecute
  · rw [readyLine_exec hst hops hexec]
    dsimp only
    rw [hunwritten.image]
    exact hst.sorted

theorem readyLine_control {t : Tid} (hst : InOrder cfg key priorities st)
    (hops : (st.thread t).ops = []) (hstep : ReadyStep key st.shared (st.thread t).pc s th) :
    (readyLine ⟨s, Function.update st.thread t th⟩).Sublist (readyLine st) ∨
      s = st.shared ∧
        (readyLine ⟨s, Function.update st.thread t th⟩).Pairwise (key.Ordered s.image) := by
  have hsame : pushedBack th.ops = [] → ∀ u,
      pushedBack (Function.update st.thread t th u).ops = pushedBack (st.thread u).ops := by
    intro hpushed u
    by_cases hu : u = t
    · rw [hu, Function.update_self, hpushed, hops]
      rfl
    · rw [Function.update_of_ne hu]
  have htail : ∀ p, st.shared.queue .lpl = p :: s.queue .lpl → pushedBack th.ops = [] →
      (readyLine ⟨s, Function.update st.thread t th⟩).Sublist (readyLine st) := by
    intro p hqueue hpushed
    simp only [readyLine, hsame hpushed, hqueue]
    exact List.sublist_cons_self ..
  cases hstep with
  | other hqueue hpushed =>
    left
    simp only [readyLine, hsame hpushed, hqueue]
    exact List.Sublist.refl _
  | takes p hpop hqueue hpushed => exact .inl (htail p hqueue hpushed)
  | sizes prioList caller hstart hs hth =>
    left
    have hpushed : pushedBack th.ops = [] := by rw [hth]; rfl
    simp only [readyLine, hsame hpushed, hs]
    exact List.Sublist.refl _
  | drains remaining prioList caller p ready hdrain hqueue hs hth =>
    refine .inl (htail p ?_ (by rw [hth]; rfl))
    rw [hqueue, hs]
    simp [Shared.setQueue]
  | sorts prioList caller hdrain hs hth =>
    right
    have hthread : toDrain (st.thread t).pc = some 0 := by rw [hdrain]; rfl
    have hempty := List.length_eq_zero_iff.mp (hst.drained t 0 hthread)
    have hholds := holdsReady_of_toDrain (by simp [hthread]) (hst.shape t)
    have hhome := home_run hst.run t
    have hsorted := bubbleSort_ordered s.image key prioList
    rw [hdrain] at hhome
    refine ⟨hs, ?_⟩
    rw [hs] at hsorted ⊢
    rw [readyLine]
    dsimp only
    rw [hempty, List.nil_append]
    cases caller with
    | sts =>
      obtain rfl : t = .sts := hhome
      rw [Function.update_self, Function.update_of_ne (show Tid.configure ≠ .sts by decide),
        hst.nil_of_holds hholds (show Tid.configure ≠ .sts by decide), List.append_nil, hth,
        pushedBack_finish]
      exact hsorted
    | configure priorities =>
      obtain rfl : t = .configure := hhome
      rw [Function.update_self, Function.update_of_ne (show Tid.sts ≠ .configure by decide),
        hst.nil_of_holds hholds (show Tid.sts ≠ .configure by decide), List.nil_append, hth,
        pushedBack_finish]
      exact hsorted

/-- An image on its way into `LPL` has been built. -/
theorem lt_of_mem_readyLine (h : RunsTo (next cfg) (fun _ _ => True)
    (start cfg key.algorithm priorities) st) {p : Ptr} (hp : p ∈ readyLine st) :
    p < st.shared.allocated := by
  have hthread : ∀ t, p ∈ pushedBack (st.thread t).ops →
      0 < (imageCount p).thread (st.thread t) := by
    intro t hmem
    obtain ⟨before, after, hops⟩ := List.append_of_mem (mem_of_mem_pushedBack hmem)
    rw [Ledger.thread, hops]
    simp [imageCount, imagesOf]
  rw [readyLine, List.mem_append, List.mem_append] at hp
  rcases hp with (hp | hp) | hp
  · exact (live_of_place h (.inl (stored_pos (.inl ⟨.lpl, hp⟩)))).1
  · exact (live_of_place h (.inr ⟨.sts, by simp [Config.threads], hthread .sts hp⟩)).1
  · exact (live_of_place h (.inr ⟨.configure, by simp [Config.threads], hthread .configure hp⟩)).1

/-- The images that the sorting loop is comparing. -/
def sorting : Label → List Ptr
  | .drain _ 0 prioList _ => prioList
  | _ => []

def beingSorted (st : PP) : List Ptr :=
  sorting (st.thread .sts).pc ++ sorting (st.thread .configure).pc

/-- `PROCER` computes the estimate of an image that is back in `LPL`, or that a re-sort is sorting
or pushing back. -/
def estimatesReady (key : SortKey) (st : PP) (a : Step) : Bool :=
  match st.thread a.1 with
  | ⟨.execute p _ e, []⟩ =>
    decide (key = .tspn ∧ e.point = .returned) && decide (p ∈ readyLine st ++ beingSorted st)
  | _ => false

theorem drained_control {t : Tid} (hst : InOrder cfg key priorities st)
    (hops : (st.thread t).ops = []) (hstep : ReadyStep key st.shared (st.thread t).pc s th)
    (u : Tid) (remaining : ℕ)
    (hdrain : toDrain (Function.update st.thread t th u).pc = some remaining) :
    (s.queue .lpl).length = remaining := by
  by_cases hu : u = t
  · rw [hu, Function.update_self] at hdrain
    cases hstep with
    | other hqueue hpushed hready =>
      have hnone := (hready (atReady_of_toDrain (by simp [hdrain]))).1
      rw [hdrain] at hnone
      cases hnone
    | takes p hpop hqueue hpushed hready =>
      rw [atReady_of_toDrain (by simp [hdrain])] at hready
      cases hready
    | sizes prioList caller hstart hs hth =>
      rw [hth] at hdrain
      rw [hs]
      exact Option.some.inj hdrain
    | drains remaining' prioList caller p ready hpc hqueue hs hth =>
      have hlength := hst.drained t _ (by rw [hpc]; rfl)
      have hle := hst.length_le
      rw [hqueue, List.length_cons] at hlength hle
      rw [hth] at hdrain
      have hremaining : (if 0 < st.shared.sem .lplEmpty then remaining' else 0) = remaining :=
        Option.some.inj hdrain
      have hready : s.queue .lpl = ready := by simp [hs, Shared.setQueue]
      rw [hready]
      split_ifs at hremaining <;> omega
    | sorts prioList caller hpc hs hth =>
      rw [hth] at hdrain
      cases caller <;> cases hdrain
  · rw [Function.update_of_ne hu] at hdrain
    have hnone : HoldsReady (st.thread t) → toDrain (st.thread u).pc = none := fun hholds =>
      hst.not_draining hholds hu
    have hqueue := hst.drained u remaining hdrain
    have hfree : atReady (st.thread t).pc = true → False := by
      intro hready
      have hdrain' := hnone ⟨by simp [hops], .inl hready⟩
      rw [hdrain] at hdrain'
      cases hdrain'
    cases hstep with
    | other hsame => rw [hsame, hqueue]
    | takes p hpop => exact absurd (by rw [hpop]; rfl) hfree
    | sizes prioList caller hstart hs => rw [hs, hqueue]
    | drains remaining' prioList caller p ready hpc => exact absurd (by rw [hpc]; rfl) hfree
    | sorts prioList caller hpc hs => rw [hs, hqueue]

theorem running_control {t : Tid} (hst : InOrder cfg key priorities st)
    (hmoves : Moves cfg st.shared t (st.thread t).pc s th) {p : Ptr} {code : List CString}
    {e : Exec} (hpc : (Function.update st.thread t th .procer).pc = .execute p code e) :
    p < s.allocated ∧ e.processImage.priority = (s.image p).priority := by
  by_cases ht : Tid.procer = t
  · subst ht
    rw [Function.update_self] at hpc
    generalize hpc₀ : (st.thread .procer).pc = pc₀ at hmoves
    cases hmoves with
    | procer hmoves =>
      cases hmoves with
      | @pop p' ps code' hqueue =>
        cases hpc
        have hp : p ∈ st.shared.queue .lpl := by
          rw [hqueue]
          exact List.mem_cons_self
        exact ⟨(live_of_place hst.run (.inl (stored_pos (.inl ⟨.lpl, hp⟩)))).1, enter_priority _⟩
      | run _ hmoves =>
        cases hpc
        obtain ⟨hlt, hpriority⟩ := hst.running _ _ _ hpc₀
        exact ⟨hlt, hmoves.identity.2.2.trans hpriority⟩
      | _ => cases hpc
  · rw [Function.update_of_ne ht] at hpc
    obtain ⟨hlt, hpriority⟩ := hst.running _ _ _ hpc
    obtain ⟨hlt', himage | ⟨code', e', hprocer, -⟩⟩ := built_control hmoves hlt
    · exact ⟨hlt', himage ▸ hpriority⟩
    · exact absurd hprocer.symm ht

/-- The keys of the images on their way into `LPL` stay as they are. -/
theorem ordered_control (hst : InOrder cfg key priorities st)
    (hmoves : Moves cfg st.shared a.1 (st.thread a.1).pc s th) (hops : (st.thread a.1).ops = [])
    (hestimate : estimatesReady key st a = false) {p p' : Ptr} (hp : p ∈ readyLine st)
    (hp' : p' ∈ readyLine st) (h : key.Ordered st.shared.image p p') :
    key.Ordered s.image p p' := by
  have hthread : st.thread a.1 = ⟨(st.thread a.1).pc, []⟩ := by rw [← hops]
  have hsame : ∀ p ∈ readyLine st, (s.image p).priority = (st.shared.image p).priority ∧
      (key = .tspn → (s.image p).Tspn = (st.shared.image p).Tspn) := by
    intro p hmem
    have hlt := lt_of_mem_readyLine hst.run hmem
    obtain ⟨-, himage | ⟨code, e, hprocer, hpc, hpoint, himage⟩⟩ := built_control hmoves hlt
    · rw [himage]
      exact ⟨rfl, fun _ => rfl⟩
    · rw [himage]
      refine ⟨(hst.running p code e (hprocer ▸ hpc)).2, fun hkey => ?_⟩
      rw [estimatesReady, hthread, hpc] at hestimate
      simp [hkey, hpoint, hmem] at hestimate
  cases key with
  | priority =>
    rw [SortKey.Ordered, (hsame p hp).1, (hsame p' hp').1]
    exact h
  | tspn =>
    rw [SortKey.Ordered, (hsame p hp).2 rfl, (hsame p' hp').2 rfl]
    exact h

theorem InOrder.control (hst : InOrder cfg key priorities st)
    (hnext : next cfg st a = some ⟨s, Function.update st.thread a.1 th⟩)
    (hops : (st.thread a.1).ops = [])
    (hcontrol : PP.control cfg a.1 (st.thread a.1).pc a.2 st.shared = some (s, th))
    (hkeeps : keepsAlgorithm key a = true) (hestimate : estimatesReady key st a = false) :
    InOrder cfg key priorities ⟨s, Function.update st.thread a.1 th⟩ := by
  have hmoves := moves_of_control hcontrol
  have hthread : st.thread a.1 = ⟨(st.thread a.1).pc, []⟩ := by rw [← hops]
  have hstep := readyStep_control hcontrol (home_run hst.run a.1) (hst.shape a.1).sorts
  obtain ⟨hsorts, hALG⟩ := sortsBy_control hcontrol (hst.shape a.1).sorts hst.ALG hkeeps
  refine ⟨hst.run.step a trivial hnext, hALG, fun t => ?_, fun t hholds => ?_,
    hst.tokens.trans (queueTokens_le_next hnext), drained_control hst hops hstep,
    fun p code e => running_control hst hmoves, ?_⟩
  · dsimp only
    by_cases ht : t = a.1
    · rw [ht, Function.update_self]
      exact readyShape_control hstep hsorts
    · rw [Function.update_of_ne ht]
      exact hst.shape t
  · dsimp only at hholds ⊢
    rw [owner_control hmoves]
    by_cases ht : t = a.1
    · rw [ht, Function.update_self] at hholds
      rw [ht]
      refine hst.owns a.1 ?_
      rw [hthread]
      exact holdsReady_control hstep hholds
    · rw [Function.update_of_ne ht] at hholds
      exact hst.owns t hholds
  · rcases readyLine_control hst hops hstep with hsublist | ⟨-, hsorted⟩
    · refine (hst.sorted.sublist hsublist).imp_of_mem fun hp hp' h => ?_
      exact ordered_control hst hmoves hops hestimate (hsublist.subset hp) (hsublist.subset hp') h
    · exact hsorted

theorem inOrder_next (hst : InOrder cfg key priorities st) (hnext : next cfg st a = some st')
    (hkeeps : keepsAlgorithm key a = true) (hestimate : estimatesReady key st a = false) :
    InOrder cfg key priorities st' := by
  rcases Machine.step_cases (next_eq_some hnext).2 with
    ⟨op, ops, s, hops, hexec, rfl⟩ | ⟨s, th, hops, hcontrol, rfl⟩
  · exact hst.exec hops hexec hnext
  · exact hst.control hnext hops hcontrol hkeeps hestimate

theorem inOrder_start : InOrder cfg key priorities (start cfg key.algorithm priorities) := by
  have hpushed : ∀ t, pushedBack (initialThread t).ops = [] := by
    intro t
    cases t <;> rfl
  refine ⟨.start, rfl, readyShape_initial key, fun t hholds => ?_, ?_, fun t remaining h => ?_,
    fun p code e h => ?_, ?_⟩
  · obtain ⟨hlock, hready | hne⟩ := hholds
    · cases t <;> simp [start, initialThread, atReady, PROCER.wait] at hready hlock
    · exact absurd (hpushed t) hne
  · rw [queueTokens_total tokenShape_initial]
    exact Eq.le rfl
  · cases t <;> simp [start, initialThread, toDrain] at h
  · simp [start, initialThread] at h
  · exact .nil

theorem inOrder_run (h : RunsTo (next cfg)
    (fun st a => keepsAlgorithm key a = true ∧ estimatesReady key st a = false)
    (start cfg key.algorithm priorities) st) : InOrder cfg key priorities st :=
  h.invariant (P := InOrder cfg key priorities) inOrder_start
    fun _ _ _ hst hok hnext => inOrder_next hst hnext hok.1 hok.2

/-- Under `PRI`, and under `SPN` as long as no estimate is computed for an image that is back in
`LPL` or in a list being sorted, `LPL` is sorted whenever nobody holds its mutex, and no ready
image has a smaller key than the one `PROCER` takes. -/
theorem ready_list_sorted (cfg : Config) (key : SortKey) (priorities : QueueName → ℤ) (st : PP)
    (h : RunsTo (next cfg)
      (fun st a => keepsAlgorithm key a = true ∧ estimatesReady key st a = false)
      (start cfg key.algorithm priorities) st) :
    (st.shared.owner .lpl = none →
      (st.shared.queue .lpl).Pairwise (key.Ordered st.shared.image)) ∧
    ∀ p ps, popsReady (st.thread .procer) = true → st.shared.queue .lpl = p :: ps →
      ∀ p' ∈ ps, key.Ordered st.shared.image p p' := by
  have hsorted := (inOrder_run h).sorted
  rw [readyLine, List.append_assoc, List.pairwise_append] at hsorted
  refine ⟨fun _ => hsorted.1, fun p ps _ hqueue => ?_⟩
  rw [hqueue, List.pairwise_cons] at hsorted
  exact hsorted.1.1

def blockingScript : CString := cstr "comienzo_programa\nio(5,1)\nfin_programa"

def patientConfig : Config := { smallConfig with TANT := 5 }

def becomeReady : List Step :=
  goes .ltsConex 3 ++ submits blockingScript 0 ++ submits idleScript 0 ++ goes .sts 38

theorem ready_list_sorted_two : ∃ st : PP, st.shared.queue .lpl = [0, 1] ∧
    (st.shared.owner .lpl = none →
      (st.shared.queue .lpl).Pairwise (SortKey.Ordered st.shared.image .tspn)) ∧
    ∀ p ps, popsReady (st.thread .procer) = true → st.shared.queue .lpl = p :: ps →
      ∀ p' ∈ ps, SortKey.Ordered st.shared.image .tspn p p' := by
  have hrun : ((follow (next patientConfig)
      (fun st a => keepsAlgorithm .tspn a && !estimatesReady .tspn st a)
      (start patientConfig .spn fun _ => 0) (becomeReady ++ goes .procer 3)).any fun st =>
        st.shared.queue .lpl == [0, 1]) = true := by
    decide +kernel
  obtain ⟨st, hst, hqueue⟩ := (Option.any_eq_true _ _).mp hrun
  exact ⟨st, eq_of_beq hqueue, ready_list_sorted patientConfig .tspn (fun _ => 0) st
    (RunsTo.of_follow (fun st a h => by simpa using h) _ hst)⟩

/-- The process that blocked is back in `LPL`, behind the other one, when its estimate falls. -/
theorem estimate_unsorts_ready : ¬ ∀ (cfg : Config) (key : SortKey) (priorities : QueueName → ℤ)
    (st : PP), RunsTo (next cfg) (fun _ a => keepsAlgorithm key a = true)
      (start cfg key.algorithm priorities) st →
        (st.shared.owner .lpl = none →
          (st.shared.queue .lpl).Pairwise (key.Ordered st.shared.image)) ∧
        ∀ p ps, popsReady (st.thread .procer) = true → st.shared.queue .lpl = p :: ps →
          ∀ p' ∈ ps, key.Ordered st.shared.image p p' := by
  intro h
  have hrun : ((follow (next patientConfig) (fun _ a => keepsAlgorithm .tspn a)
      (start patientConfig .spn fun _ => 0) (becomeReady ++ goes .procer 22 ++
        goes (.ioThread 0) 17 ++ goes .sts 30 ++ goes .procer 1)).any fun st =>
          st.shared.owner .lpl == none && st.shared.queue .lpl == [1, 0] &&
            decide ((st.shared.image 0).Tspn < (st.shared.image 1).Tspn)) = true := by
    decide +kernel
  obtain ⟨st, hst, hvalues⟩ := (Option.any_eq_true _ _).mp hrun
  simp only [Bool.and_eq_true, beq_iff_eq, decide_eq_true_iff] at hvalues
  obtain ⟨⟨howner, hqueue⟩, htspn⟩ := hvalues
  have hsorted := (h patientConfig .tspn (fun _ => 0) st
    (RunsTo.of_follow (fun _ _ h => h) _ hst)).1 howner
  rw [hqueue] at hsorted
  have hordered := List.rel_of_pairwise_cons hsorted (List.mem_singleton_self 0)
  exact absurd hordered (Rat.not_le.mpr htspn)

end Runs

end PP
end Sisop

import Sisop.SortLoops
import Sisop.ThreadAlone
import Sisop.ThreadSteps

/-!
# One round of `ordenarFIFO`

The array of priorities is sorted by swaps; the round then empties the four queues in the order of
the array. `Shared.served` is the state in which the semaphores of the queues are their sizes and
`STS_in_empty` their sum, and `moved` has gone to the ready list.
-/

namespace Sisop

def waiting (queues : QueueName → List Ptr) : ℕ :=
  (queues .plpn).length + (queues .plpr).length + (queues .plfq).length + (queues .plfio).length

def Shared.served (s : Shared) (queues : QueueName → List Ptr) (moved : List Ptr) : Shared :=
  { s with
    queue := fun
      | .lpn => queues .plpn
      | .lpr => queues .plpr
      | .lfq => queues .plfq
      | .lfio => queues .plfio
      | .lpl => s.queue .lpl ++ moved
      | .lfifo => s.queue .lfifo
    sem := fun
      | .lpnEmpty => (queues .plpn).length
      | .lprEmpty => (queues .plpr).length
      | .lfqEmpty => (queues .plfq).length
      | .lfioEmpty => (queues .plfio).length
      | .stsInEmpty => waiting queues
      | .lplEmpty => s.sem .lplEmpty + moved.length
      | sem => s.sem sem }

section Served

variable {s : Shared} {queues : QueueName → List Ptr} {moved ps : List Ptr} {name : QueueName}
  {p : Ptr}

theorem served_self
    (hsem : ∀ name : QueueName, s.sem name.queue.empty = (s.queue name.queue).length)
    (hsum : s.sem .stsInEmpty = waiting fun name : QueueName => s.queue name.queue) :
    s.served (fun name : QueueName => s.queue name.queue) [] = s := by
  have hqueue : (s.served (fun name : QueueName => s.queue name.queue) []).queue = s.queue := by
    funext q
    cases q with
    | lpl => exact List.append_nil _
    | _ => rfl
  have hsems : (s.served (fun name : QueueName => s.queue name.queue) []).sem = s.sem := by
    funext sem
    cases sem with
    | lpnEmpty => exact (hsem .plpn).symm
    | lprEmpty => exact (hsem .plpr).symm
    | lfqEmpty => exact (hsem .plfq).symm
    | lfioEmpty => exact (hsem .plfio).symm
    | stsInEmpty => exact hsum.symm
    | _ => rfl
  calc s.served (fun name : QueueName => s.queue name.queue) []
      = { s with
          queue := (s.served (fun name : QueueName => s.queue name.queue) []).queue
          sem := (s.served (fun name : QueueName => s.queue name.queue) []).sem } := rfl
    _ = s := by rw [hqueue, hsems]

@[simp] theorem served_queue : (s.served queues moved).queue name.queue = queues name := by
  cases name <;> rfl

@[simp] theorem served_sem :
    (s.served queues moved).sem name.queue.empty = (queues name).length := by
  cases name <;> rfl

/-- One image goes from its queue to the ready list. -/
theorem served_move (h : queues name = p :: ps) :
    ((((((s.served queues moved).tryWait name.queue.empty).tryWait .stsInEmpty).setQueue name.queue
      ps).setQueue .lpl ((s.served queues moved).queue .lpl ++ [p])).post .lplEmpty) =
        s.served (Function.update queues name ps) (moved ++ [p]) := by
  have hequal : ∀ {queue queue' : Queue → List Ptr} {sem sem' : Semaphore → ℕ}, queue = queue' →
      sem = sem' → { s with queue, sem } = { s with queue := queue', sem := sem' } := by
    rintro queue _ sem _ rfl rfl
    rfl
  refine hequal ?_ ?_
  · funext q
    cases name <;> cases q <;> first | rfl | exact List.append_assoc _ _ _
  · have hlength : (queues name).length = ps.length + 1 := by rw [h, List.length_cons]
    have hone : (queues name).length - 1 = ps.length := by omega
    funext sem
    cases sem with
    | stsInEmpty =>
      have hwaiting : waiting queues - 1 = waiting (Function.update queues name ps) := by
        cases name <;> simp only [waiting, Function.update_self, ne_eq, reduceCtorEq,
          not_false_eq_true, Function.update_of_ne] <;> omega
      cases name <;> exact hwaiting
    | lplEmpty =>
      have hposted : s.sem .lplEmpty + moved.length + 1 =
          s.sem .lplEmpty + (moved ++ [p]).length := by
        rw [List.length_append, List.length_singleton, Nat.add_assoc]
      cases name <;> exact hposted
    | lpnEmpty | lprEmpty | lfqEmpty | lfioEmpty => cases name <;> first | rfl | exact hone
    | _ => cases name <;> rfl

end Served

section Operations

variable {cfg : Config} {t : Tid} {s : Shared}

theorem execAll_logWrite (h : s.owner .log = none) :
    (PP.machine cfg).execAll t logWrite s = some s :=
  Machine.execAll_cons (exec_lock h) (Machine.execAll_cons (exec_unlock h) rfl)

theorem execAll_enqueueLocked {q : Queue} (p : Ptr) (h : s.owner q.mutex = none) :
    (PP.machine cfg).execAll t (enqueueLocked q p) s =
      some ((s.setQueue q (s.queue q ++ [p])).post q.empty) := by
  have hunlock : ((s.setQueue q (s.queue q ++ [p])).post q.empty).owner q.mutex = none := h
  exact Machine.execAll_cons (exec_lock h) (Machine.execAll_cons rfl
    (Machine.execAll_cons (exec_unlock hunlock) rfl))

end Operations

section Round

variable {cfg : Config} {s s' : Shared} {queues : QueueName → List Ptr} {moved ps : List Ptr}
  {name : QueueName} {p : Ptr} {i : ℕ}

theorem control_popQueue {kind : Round} {prioList : List Ptr}
    (h : s.queue name.queue = p :: ps) :
    STS.control s (.popQueue kind i name prioList) .go =
      some (s.setQueue name.queue ps, STS.takeOver kind i name prioList p) := by
  simp only [STS.control, h]

theorem control_round {kind : Round} {prioList : List Ptr} {entry : TQueuesArray}
    (h : s.queuesArray[i]? = some entry) : STS.control s (.round kind i prioList) .go =
      some (s, ⟨.collect kind i entry.name prioList, []⟩) := by
  simp only [STS.control, h]

theorem control_round_end {kind : Round} {prioList : List Ptr} (h : s.queuesArray[i]? = none) :
    STS.control s (.round kind i prioList) .go = some (s, STS.endRound kind prioList) := by
  simp only [STS.control, h]

def STS.returned : Thread Operation Label := ⟨.readALG, STS.wait⟩

structure FreeForRound (s : Shared) : Prop where
  log : s.owner .log = none
  lpl : s.owner .lpl = none
  queues : ∀ name : QueueName, s.owner name.queue.mutex = none

theorem returnsTo_take (hfree : FreeForRound s) (h : queues name = p :: ps)
    (hrest : (PP.machine cfg).ReturnsTo .sts .go STS.returned
      (s.served (Function.update queues name ps) (moved ++ [p]))
      ⟨.collect .fifo i name [], []⟩ s') :
    (PP.machine cfg).ReturnsTo .sts .go STS.returned (s.served queues moved)
      ⟨.collect .fifo i name [], []⟩ s' := by
  have hpositive : 0 < (s.served queues moved).sem name.queue.empty := by
    rw [served_sem, h]
    exact Nat.succ_pos _
  have hpop : (s.served queues moved).queue name.queue = p :: ps := by rw [served_queue, h]
  have hready : Function.update (s.served queues moved).queue name.queue ps .lpl =
      (s.served queues moved).queue .lpl := by
    cases name <;> rfl
  have hops : (PP.machine cfg).execAll .sts (STS.takeOver .fifo i name [] p).ops
      (((((s.served queues moved).tryWait name.queue.empty).tryWait .stsInEmpty).setQueue
        name.queue ps).setOwner name.queue.mutex (some .sts)) =
        some (s.served (Function.update queues name ps) (moved ++ [p])) := by
    rw [← served_move h, ← hready]
    exact Machine.execAll_append (Machine.execAll_append
      (Machine.execAll_cons (exec_unlock (hfree.queues name)) (Machine.execAll_cons rfl rfl))
      (execAll_logWrite hfree.log)) (execAll_enqueueLocked p hfree.lpl)
  have hcontrol : (PP.machine cfg).control .sts (.popQueue .fifo i name []) .go
      ((((s.served queues moved).tryWait name.queue.empty).tryWait .stsInEmpty).setOwner
        name.queue.mutex (some .sts)) =
      some (((((s.served queues moved).tryWait name.queue.empty).tryWait .stsInEmpty).setQueue
        name.queue ps).setOwner name.queue.mutex (some .sts), STS.takeOver .fifo i name [] p) := by
    exact control_popQueue hpop
  refine .control (by simp [STS.returned]) (if_pos hpositive) ?_
  refine .control (by simp [STS.returned]) rfl ?_
  refine .exec (by simp [STS.returned]) (exec_lock (hfree.queues name)) ?_
  refine .control (by simp [STS.returned]) hcontrol ?_
  exact Machine.returnsTo_of_execAll (by simp [STS.returned]) hops hrest

/-- The inner loop empties the queue. -/
theorem returnsTo_collect (hfree : FreeForRound s) (h : queues name = ps)
    (hrest : (PP.machine cfg).ReturnsTo .sts .go STS.returned
      (s.served (Function.update queues name []) (moved ++ ps)) ⟨.round .fifo (i + 1) [], []⟩ s') :
    (PP.machine cfg).ReturnsTo .sts .go STS.returned (s.served queues moved)
      ⟨.collect .fifo i name [], []⟩ s' := by
  induction ps generalizing queues moved with
  | nil =>
    have hempty : ¬ 0 < (s.served queues moved).sem name.queue.empty := by
      rw [served_sem, h]
      exact Nat.lt_irrefl 0
    rw [← h, Function.update_eq_self, h, List.append_nil] at hrest
    exact .control (by simp [STS.returned]) (if_neg hempty) hrest
  | cons p ps ih =>
    apply returnsTo_take hfree h
    apply ih (Function.update_self _ _ _)
    rwa [Function.update_idem, List.append_assoc, List.singleton_append]

/-- What is left behind the entries. -/
def emptied (queues : QueueName → List Ptr) (entries : List TQueuesArray) :
    QueueName → List Ptr :=
  entries.foldl (fun queues entry => Function.update queues entry.name []) queues

/-- The outer loop over what is left of the array. -/
theorem returnsTo_round (hfree : FreeForRound s) (queues : QueueName → List Ptr)
    (moved : List Ptr) {entries : List TQueuesArray} (h : s.queuesArray.drop i = entries)
    (hnames : (entries.map (·.name)).Nodup)
    (hrest : (PP.machine cfg).ReturnsTo .sts .go STS.returned
      (s.served (emptied queues entries)
        (moved ++ entries.flatMap fun entry => queues entry.name)) (STS.endRound .fifo []) s') :
    (PP.machine cfg).ReturnsTo .sts .go STS.returned (s.served queues moved)
      ⟨.round .fifo i [], []⟩ s' := by
  induction entries generalizing i queues moved with
  | nil =>
    have hnone : s.queuesArray[i]? = none := List.getElem?_eq_none (List.drop_eq_nil_iff.mp h)
    have hcontrol : (PP.machine cfg).control .sts (.round .fifo i []) .go
        (s.served queues moved) = some (s.served queues moved, STS.endRound .fifo []) := by
      exact control_round_end hnone
    rw [List.flatMap_nil, List.append_nil] at hrest
    exact .control (by simp [STS.returned]) hcontrol hrest
  | cons entry entries ih =>
    have hsome : s.queuesArray[i]? = some entry := by
      rw [← Nat.add_zero i, ← List.getElem?_drop, h]
      rfl
    have hcontrol : (PP.machine cfg).control .sts (.round .fifo i []) .go
        (s.served queues moved) =
          some (s.served queues moved, ⟨.collect .fifo i entry.name [], []⟩) := by
      exact control_round hsome
    have hdrop : s.queuesArray.drop (i + 1) = entries := by
      rw [← List.drop_drop, h]
      rfl
    rw [List.map_cons, List.nodup_cons] at hnames
    have hkept : (entries.flatMap fun entry' =>
        Function.update queues entry.name [] entry'.name) =
          entries.flatMap fun entry' => queues entry'.name := by
      refine List.flatMap_congr fun entry' hmem => ?_
      refine Function.update_of_ne (fun heq => hnames.1 ?_) _ _
      exact List.mem_map.mpr ⟨entry', hmem, heq⟩
    refine .control (by simp [STS.returned]) hcontrol (returnsTo_collect hfree rfl ?_)
    apply ih _ _ hdrop hnames.2
    rw [hkept, List.append_assoc]
    exact hrest

theorem emptied_apply (entries : List TQueuesArray) (queues : QueueName → List Ptr)
    (name : QueueName) : emptied queues entries name =
      if name ∈ entries.map (·.name) then [] else queues name := by
  induction entries generalizing queues with
  | nil => rfl
  | cons entry entries ih =>
    change emptied (Function.update queues entry.name []) entries name = _
    rw [ih, List.map_cons]
    by_cases hname : name = entry.name
    · rw [hname, Function.update_self, ite_self, if_pos List.mem_cons_self]
    · rw [Function.update_of_ne hname]
      simp only [List.mem_cons, hname, false_or]

/-- Behind the whole array the four queues are empty. -/
theorem emptied_eq {entries : List TQueuesArray}
    (hnames : (entries.map (·.name)).Perm [.plpn, .plpr, .plfq, .plfio])
    (queues : QueueName → List Ptr) : emptied queues entries = fun _ => [] := by
  funext name
  rw [emptied_apply, if_pos]
  rw [hnames.mem_iff]
  cases name <;> simp

theorem returnsTo_ordenarFIFO (hfree : FreeForRound s)
    (hnames : (s.queuesArray.map (·.name)).Perm [.plpn, .plpr, .plfq, .plfio])
    (hsem : ∀ name : QueueName, s.sem name.queue.empty = (s.queue name.queue).length)
    (hsum : s.sem .stsInEmpty = waiting fun name : QueueName => s.queue name.queue) :
    (PP.machine cfg).ReturnsTo .sts .go STS.returned s ⟨.round .fifo 0 [], [.logCreate]⟩
      (s.served (fun _ => []) (s.queuesArray.flatMap fun entry => s.queue entry.name.queue)) := by
  obtain ⟨s₁, hs₁⟩ : ∃ s₁, s₁ = { s with openLogs := s.openLogs + 1 } := ⟨_, rfl⟩
  have hfree₁ : FreeForRound s₁ := by
    subst hs₁
    exact ⟨hfree.log, hfree.lpl, hfree.queues⟩
  have hself : s₁.served (fun name : QueueName => s.queue name.queue) [] = s₁ := by
    subst hs₁
    exact served_self hsem hsum
  have harray : s₁.queuesArray.drop 0 = s.queuesArray := by
    subst hs₁
    rfl
  have hround : (PP.machine cfg).ReturnsTo .sts .go STS.returned
      (s₁.served (fun name : QueueName => s.queue name.queue) []) ⟨.round .fifo 0 [], []⟩
      (s.served (fun _ => []) (s.queuesArray.flatMap fun entry => s.queue entry.name.queue)) := by
    apply returnsTo_round hfree₁ _ _ harray (hnames.nodup_iff.mpr (by decide))
    rw [emptied_eq hnames]
    refine .exec (by simp [STS.returned]) ?_ (.here _)
    subst hs₁
    rfl
  rw [hself, hs₁] at hround
  exact .exec (by simp [STS.returned]) rfl hround

end Round

section Array

variable {entries : List TQueuesArray}

def entryGreater (a b : TQueuesArray) : Bool := decide (b.priority < a.priority)

theorem swapsNeighbours_exchangeEntries (ilimit : ℕ) : SwapsNeighbours exchangeEntries ilimit := by
  intro front list a b _
  have ha : (front ++ a :: b :: list)[front.length]? = some a := by simp
  have hb : (front ++ a :: b :: list)[front.length + 1]? = some b := by simp
  rw [exchangeEntries, ha, hb]
  simp

theorem entryGreater_asymm (a b : TQueuesArray) (h : entryGreater a b = true) :
    entryGreater b a = false := by
  rw [entryGreater, decide_eq_true_iff] at h
  rw [entryGreater, decide_eq_false_iff_not]
  omega

theorem entryGreater_trans (a b c : TQueuesArray) (h : entryGreater a b = false)
    (h' : entryGreater b c = false) : entryGreater a c = false := by
  rw [entryGreater, decide_eq_false_iff_not] at h h' ⊢
  omega

/-- The loop of `reorderQueuesArrayPriority` ends in what the definition gives, in ascending
priority and with entries of one priority in their order. -/
structure Reorders (entries entries' : List TQueuesArray) : Prop where
  ends : LoopsTo (fun entries => bubblePass entryGreater exchangeEntries 3 0 entries true) entries
    entries'
  sorted : entries'.Pairwise fun a b => a.priority ≤ b.priority
  perm : entries'.Perm entries
  ties : ∀ priority : ℤ, entries'.filter (·.priority == priority) =
    entries.filter (·.priority == priority)

theorem reorders (h : entries.length = 4) :
    Reorders entries (reorderQueuesArrayPriority entries) := by
  constructor
  · exact loopsTo_bubbleLoop entryGreater_asymm entryGreater_trans
      (swapsNeighbours_exchangeEntries 3) h (by decide)
  · refine (bubbleLoop_sorted entryGreater_asymm entryGreater_trans
      (swapsNeighbours_exchangeEntries 3) h (by decide)).imp fun {a b} hab => ?_
    rw [entryGreater, decide_eq_false_iff_not] at hab
    omega
  · exact bubbleLoop_perm _ _ _ (fun list i hlength hi => exchangeEntries_perm (by omega)) _ _
      (by omega)
  · intro priority
    refine bubbleLoop_filter (swapsNeighbours_exchangeEntries 3) h fun a b ha hb => ?_
    rw [beq_iff_eq] at ha hb
    rw [decide_eq_false_iff_not]
    omega

end Array

/-- The priorities read for the four queues put the array in order, and the round of `ordenarFIFO`
behind it moves every queue in that order. -/
theorem fifo_round_in_order (cfg : Config) (priorities : QueueName → ℤ)
    (array : List TQueuesArray) (s : Shared)
    (hnames : (array.map (·.name)).Perm [.plpn, .plpr, .plfq, .plfio])
    (harray : s.queuesArray = readPriorities priorities array) (hfree : FreeForRound s)
    (hsem : ∀ name : QueueName, s.sem name.queue.empty = (s.queue name.queue).length)
    (hsum : s.sem .stsInEmpty = waiting fun name : QueueName => s.queue name.queue) :
    Reorders (array.map fun entry => { entry with priority := priorities entry.name })
        s.queuesArray ∧
      ∃ s', (PP.machine cfg).ReturnsTo .sts .go STS.returned s
          ⟨.round .fifo 0 [], [.logCreate]⟩ s' ∧
        s'.queue .lpl =
          s.queue .lpl ++ s.queuesArray.flatMap (fun entry => s.queue entry.name.queue) ∧
        (∀ name : QueueName, s'.queue name.queue = [] ∧ s'.sem name.queue.empty = 0) ∧
        s'.sem .stsInEmpty = 0 ∧
        s'.sem .lplEmpty =
          s.sem .lplEmpty + waiting fun name : QueueName => s.queue name.queue := by
  have hlength : array.length = 4 := by
    rw [← List.length_map (·.name), hnames.length_eq]
    rfl
  have hreorders : Reorders (array.map fun entry =>
      { entry with priority := priorities entry.name }) (readPriorities priorities array) :=
    reorders (by rw [List.length_map, hlength])
  have hnames' : (s.queuesArray.map (·.name)).Perm [.plpn, .plpr, .plfq, .plfio] := by
    rw [harray]
    exact (readPriorities_names priorities hlength).trans hnames
  refine ⟨?_, _, returnsTo_ordenarFIFO hfree hnames' hsem hsum, rfl, fun name => ?_, rfl, ?_⟩
  · rw [harray]
    exact hreorders
  · exact ⟨served_queue, served_sem⟩
  · have hmoved : (s.queuesArray.flatMap fun entry => s.queue entry.name.queue).length =
        waiting fun name : QueueName => s.queue name.queue := by
      have hsizes := (hnames'.map fun name : QueueName => (s.queue name.queue).length).sum_eq
      rw [List.map_map] at hsizes
      rw [List.length_flatMap]
      refine hsizes.trans ?_
      simp only [waiting, List.map_cons, List.map_nil, List.sum_cons, List.sum_nil, Nat.add_zero,
        Nat.add_assoc]
    exact congrArg (s.sem .lplEmpty + ·) hmoved

def roundState : Shared :=
  { (PP.start PP.smallConfig .fifo fun name => if name = .plpn then 2 else 1).shared with
    queue := fun q => if q = .lpn then [1] else if q = .lpr then [2] else []
    sem := fun sem => if sem = .lpnEmpty ∨ sem = .lprEmpty then 1
      else if sem = .stsInEmpty then 2 else 0 }

theorem fifo_round_in_order_two : ∃ s', (PP.machine PP.smallConfig).ReturnsTo .sts .go
    STS.returned roundState ⟨.round .fifo 0 [], [.logCreate]⟩ s' ∧ s'.queue .lpl = [2, 1] := by
  obtain ⟨-, s', hreturns, hready, -⟩ := fifo_round_in_order PP.smallConfig
    (fun name => if name = .plpn then 2 else 1) PP.initialArray roundState (by decide) rfl
    ⟨rfl, rfl, fun _ => rfl⟩ (by intro name; cases name <;> rfl) rfl
  exact ⟨s', hreturns, hready⟩

end Sisop

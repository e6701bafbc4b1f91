import Sisop.ImageLedger
import Sisop.ThreadOperations

/-!
# No process is lost

With a quantum that is not negative a dispatch always ends in one of the ways `PROCER` knows, so
only the draining loop can lose an image: `list_add_in_index` drops what it is given when the
list is empty. `configure` always calls the re-sort with an empty list, and a round that has
collected nothing does.
-/

namespace Sisop
namespace PP

variable {cfg : Config} {s s' : Shared} {pc : Label} {th : Thread Operation Label}

/-- Nobody clears `SUSPEND` between the end of the loop of `processExecution` and the tests of
`PROCER`. -/
def ClearShape (t : Tid) (th : Thread Operation Label) : Prop :=
  .clearSUSPEND ∈ th.ops →
    t = .procer ∧ ∀ p code e, th.pc = .execute p code e → e.point ≠ .returned

theorem clearShape_tail (t : Tid) (pc : Label) (op : Operation) (ops : List Operation)
    (h : ClearShape t ⟨pc, op :: ops⟩) : ClearShape t ⟨pc, ops⟩ :=
  fun hmem => h (List.mem_cons_of_mem _ hmem)

theorem enter_point (image : TProcessImage) : (Exec.enter image).1.point = .loopTest := by
  obtain ⟨stack, elements, heq⟩ := Exec.stackExecution_eq (Exec.atEntry image)
  rw [Exec.enter, heq]
  rfl

theorem enter_quantumCount (image : TProcessImage) : (Exec.enter image).1.quantumCount = 0 := by
  obtain ⟨stack, elements, heq⟩ := Exec.stackExecution_eq (Exec.atEntry image)
  rw [Exec.enter, heq]
  rfl

theorem clearShape_procer (h : PROCER.Moves cfg s pc s' th) : ClearShape .procer th := by
  refine fun hmem => ⟨rfl, ?_⟩
  cases h with
  | @pop p ps code =>
    rintro p code e ⟨⟩
    simp [enter_point]
  | run _ hmoves => cases hmoves.scriptOperation _ hmem
  | _ =>
    rintro p code e ⟨⟩

theorem clearShape_of_other {t : Tid} (ht : t ≠ .procer)
    (h : ∀ op ∈ th.ops, OperationOf t op) : ClearShape t th := by
  refine fun hmem => absurd ?_ ht
  cases h _ hmem
  rfl

theorem clearShape_control {t : Tid} (h : Moves cfg s t pc s' th)
    (hops : ∀ op ∈ th.ops, OperationOf t op) : ClearShape t th := by
  cases h with
  | procer h => exact clearShape_procer h
  | _ => exact clearShape_of_other Tid.noConfusion hops

theorem SUSPEND_exec {t : Tid} {op : Operation} (h : op.exec t s = some s')
    (hop : op ≠ .clearSUSPEND) : s'.SUSPEND = s.SUSPEND := by
  cases op with
  | lock m | unlock m | wait m =>
    simp only [Operation.exec] at h
    split_ifs at h
    cases h
    rfl
  | clearSUSPEND => exact absurd rfl hop
  | _ =>
    cases h
    rfl

theorem SUSPEND_control {t : Tid} (h : Moves cfg s t pc s' th) (ht : t ≠ .procer)
    (hs : s.SUSPEND = true) : s'.SUSPEND = true := by
  cases h with
  | ltsConex h => cases h <;> exact hs
  | sts h =>
    cases h with
    | orderInsert h => cases h <;> exact hs
    | _ => exact hs
  | configure h =>
    cases h with
    | orderInsert h => cases h <;> exact hs
    | _ => exact hs
  | procer => exact absurd rfl ht
  | raise => rfl
  | _ => exact hs

section Endings

variable {ok : PP → Step → Prop} {st st' : PP} {a : Step} {ALG : Algorithm}
  {priorities : QueueName → ℤ}

/-- The dispatch under way has not gone beyond its quantum, and has a reason to be over once it
is. -/
def Accounted (cfg : Config) (st : PP) : Prop :=
  ∀ p code e, (st.thread .procer).pc = .execute p code e →
    e.Bounded cfg.quantum ∧ e.Ended code cfg.quantum st.shared.SUSPEND

theorem ended_of_SUSPEND {code : List CString} {quantum : ℤ} {SUSPEND SUSPEND' : Bool} {e : Exec}
    (h : e.Ended code quantum SUSPEND)
    (hkeeps : e.point = .returned → SUSPEND = true → SUSPEND' = true) :
    e.Ended code quantum SUSPEND' := by
  intro hreturned
  exact (h hreturned).imp_right (.imp_right (.imp_right (hkeeps hreturned)))

theorem accounted_control (hquantum : 0 ≤ cfg.quantum) (h : PROCER.Moves cfg s pc s' th)
    (hpc : ∀ p code e, pc = .execute p code e → e.Bounded cfg.quantum) {p : Ptr}
    {code : List CString} {e : Exec} (hth : th.pc = .execute p code e) :
    e.Bounded cfg.quantum ∧ e.Ended code cfg.quantum s'.SUSPEND := by
  cases h with
  | pop =>
    cases hth
    have hpoint := enter_point (s.image p)
    refine ⟨⟨?_, ?_⟩, ?_⟩
    · rw [enter_quantumCount]
      exact hquantum
    · rw [hpoint]
      rintro (h | h) <;> cases h
    · intro hreturned
      rw [hpoint] at hreturned
      cases hreturned
  | run _ hmoves =>
    cases hth
    have he := hpc _ _ _ rfl
    exact ⟨hmoves.bounded he, hmoves.ended he⟩
  | _ => cases hth

theorem accounted_next (hquantum : 0 ≤ cfg.quantum) (h : next cfg st a = some st')
    (hshape : ∀ t, ClearShape t (st.thread t)) (hst : Accounted cfg st) : Accounted cfg st' := by
  intro p code e hpc
  rcases thread_next h .procer with ⟨ha, hth⟩ | ⟨op, ops, ha, hthread, hexec, hth⟩ |
    ⟨-, -, hmoves⟩
  · rw [hth] at hpc
    obtain ⟨hbounded, hended⟩ := hst p code e hpc
    refine ⟨hbounded, ended_of_SUSPEND hended fun _ hs => ?_⟩
    rcases shared_next h with ⟨op, ops, hops, hexec, -⟩ | ⟨-, hmoves, -⟩
    · rw [SUSPEND_exec hexec ?_]
      · exact hs
      · rintro rfl
        exact ha ((hshape a.1) (by rw [hops]; exact List.mem_cons_self)).1
    · exact SUSPEND_control hmoves ha hs
  · rw [hth] at hpc
    obtain ⟨hbounded, hended⟩ := hst p code e hpc
    refine ⟨hbounded, ended_of_SUSPEND hended fun hreturned hs => ?_⟩
    rw [SUSPEND_exec hexec ?_]
    · exact hs
    · rintro rfl
      exact (hshape .procer (by rw [hthread]; exact List.mem_cons_self)).2 p code e hpc hreturned
  · cases hmoves with
    | procer hmoves =>
      exact accounted_control hquantum hmoves (fun p code e hpc => (hst p code e hpc).1) hpc

theorem clearShape_initial (t : Tid) : ClearShape t (initialThread t) := by
  by_cases ht : t = .procer
  · subst ht
    exact fun _ => ⟨rfl, fun _ _ _ hpc => by cases hpc⟩
  · exact clearShape_of_other ht (operationOf_initial t)

theorem clearShape_run (h : RunsTo (next cfg) ok (start cfg ALG priorities) st) (t : Tid) :
    ClearShape t (st.thread t) :=
  shape_run clearShape_initial clearShape_tail
    (fun hmoves _ hops _ => clearShape_control hmoves hops) h t

theorem accounted_run (hquantum : 0 ≤ cfg.quantum)
    (h : RunsTo (next cfg) ok (start cfg ALG priorities) st) : Accounted cfg st := by
  induction h with
  | start =>
    intro p code e hpc
    cases hpc
  | step a hrun hok hnext ih => exact accounted_next hquantum hnext (clearShape_run hrun) ih

end Endings

/-- The places of `MPS` taken: the tokens not there, the images not freed, and a token on its
way from or to the semaphore. -/
def slots : Ledger Operation Label Shared ℤ where
  held s := s.sem .mpsSem + s.allocated - s.freed.length
  pc
    | .building _ _ _ => 1
    | _ => 0
  op
    | .wait .mpsSem => -1
    | .post .mpsSem => 1
    | .freeImage _ => -1
    | _ => 0

theorem slots_exec {t : Tid} {op : Operation} (h : op.exec t s = some s') :
    slots.held s' = slots.held s + slots.op op := by
  cases op with
  | lock m | unlock m =>
    simp only [Operation.exec] at h
    split_ifs at h
    cases h
    simp [slots, Shared.setOwner]
  | wait sem =>
    simp only [Operation.exec] at h
    split_ifs at h with hpos
    cases h
    cases sem <;> simp [slots, Shared.tryWait]
    omega
  | post sem =>
    cases h
    cases sem <;> simp [slots, Shared.post]
    omega
  | enqueue q p =>
    cases h
    cases q <;> simp [slots, Shared.post, Shared.setQueue, Queue.empty]
  | freeImage p =>
    cases h
    simp [slots]
    omega
  | _ =>
    cases h
    simp [slots, Shared.post, Shared.setConnection]

def returnsSlot (ops : List Operation) : Bool :=
  ops.contains (.post .mpsSem) && ops.all fun
    | .freeImage _ => false
    | _ => true

/-- Only `PROCER` frees images and returns tokens, an image first. -/
structure SlotShape (t : Tid) (th : Thread Operation Label) : Prop where
  home : homeOf th.pc t
  idle : t ≠ .procer → ∀ op ∈ th.ops, slots.op op = 0
  tracks : slots.Tracks (fun ops => if returnsSlot ops then 1 else 0) th.ops

theorem slotShape_tail (t : Tid) (pc : Label) (op : Operation) (ops : List Operation)
    (h : SlotShape t ⟨pc, op :: ops⟩) : SlotShape t ⟨pc, ops⟩ :=
  ⟨h.home, fun ht op' hop' => h.idle ht op' (List.mem_cons_of_mem _ hop'),
    (slots.tracks_cons.mp h.tracks).2⟩

theorem slotShape_of_idle {t : Tid} (hpc : homeOf th.pc t) (h : ∀ op ∈ th.ops, slots.op op = 0) :
    SlotShape t th := by
  refine ⟨hpc, fun _ => h, slots.tracks_of_idle h fun ops' hops' => if_neg fun hreturns => ?_⟩
  rw [returnsSlot, Bool.and_eq_true, List.contains_iff_mem] at hreturns
  exact absurd (h _ (hops' hreturns.1)) (by decide)

theorem slots_scriptOperations {self : Ptr} {clientfd : ℕ} {ops : List Operation}
    (h : ∀ op ∈ ops, ScriptOperation self clientfd op) : ∀ op ∈ ops, slots.op op = 0 := by
  intro op hop
  cases h op hop <;> rfl

theorem OperationOf.slots_idle {t : Tid} {op : Operation} (h : OperationOf t op)
    (ht : t ≠ .procer) : slots.op op = 0 := by
  cases h with
  | free | finished => exact absurd rfl ht
  | _ => rfl

theorem slotShape_procer (h : PROCER.Moves cfg s pc s' th) : SlotShape .procer th := by
  cases h with
  | @pop p ps code =>
    refine slotShape_of_idle rfl fun op hop => ?_
    rcases List.mem_append.mp hop with hop | hop
    · simp only [logWrite, List.mem_append, List.mem_cons, List.not_mem_nil, or_false] at hop
      rcases hop with ((rfl | rfl) | rfl | rfl) | rfl <;> rfl
    · exact slots_scriptOperations
        (Exec.enter_scriptOperation p 0 (s.image p)) op hop
  | run _ hmoves => exact slotShape_of_idle rfl (slots_scriptOperations hmoves.scriptOperation)
  | finished =>
    refine ⟨rfl, fun ht => absurd rfl ht, ?_⟩
    simp [PROCER.finished, PROCER.wait, logWrite, sendMsg, Ledger.tracks_cons, Ledger.tracks_nil,
      slots, returnsSlot]
  | _ =>
    refine slotShape_of_idle rfl ?_
    simp [slots, PROCER.suspended, PROCER.endOfQuantum, PROCER.wait, logWrite, sendMsg,
      enqueueForSTS]

theorem slotShape_control {t : Tid} (h : Moves cfg s t pc s' th) (hhome : homeOf th.pc t)
    (hops : ∀ op ∈ th.ops, OperationOf t op) : SlotShape t th := by
  cases h with
  | procer h => exact slotShape_procer h
  | _ => exact slotShape_of_idle hhome fun op hop => (hops op hop).slots_idle Tid.noConfusion

theorem slots_of_idle {pc' : Label}
    (h : slots.held s' + slots.pc th.pc = slots.held s + slots.pc pc')
    (hops : ∀ op ∈ th.ops, slots.op op = 0) :
    slots.held s' + slots.thread th = slots.held s + slots.pc pc' := by
  rw [Ledger.thread, slots.ops_eq_zero hops, add_zero, h]

/-- A token for an image that is not built yet, then the image. -/
theorem slots_ltsConex (h : LTSconex.Moves cfg s pc s' th) :
    slots.held s' + slots.pc th.pc = slots.held s + slots.pc pc := by
  cases h with
  | script fd data priority hsem =>
    simp [slots, Shared.tryWait]
    omega
  | admission | delay =>
    simp [slots, Shared.allocate, Shared.tryWait]
    omega
  | _ => rfl

theorem slots_orderInsert (h : OrderInsert.Moves s pc s' th) :
    slots.held s' + slots.pc th.pc = slots.held s + slots.pc pc := by
  cases h with
  | finish key caller => cases caller <;> rfl
  | _ => rfl

theorem slots_sts (h : STS.Moves s pc s' th) :
    slots.held s' + slots.pc th.pc = slots.held s + slots.pc pc := by
  cases h with
  | orderInsert h => exact slots_orderInsert h
  | @takeToken kind i name => cases name <;> rfl
  | endRound kind => cases kind <;> rfl
  | pop kind => cases kind <;> rfl
  | _ => rfl

theorem slots_configure (h : Configure.Moves s pc s' th) :
    slots.held s' + slots.pc th.pc = slots.held s + slots.pc pc := by
  cases h with
  | orderInsert h => exact slots_orderInsert h
  | setALG ALG => cases ALG <;> rfl
  | _ => rfl

theorem slots_procer (h : PROCER.Moves cfg s pc s' th) :
    slots.held s' + slots.thread th = slots.held s + slots.pc pc := by
  cases h with
  | @pop p ps code =>
    rw [Ledger.thread, PROCER.dispatch, Ledger.ops_append,
      slots.ops_eq_zero (slots_scriptOperations (Exec.enter_scriptOperation p 0 (s.image p)))]
    rfl
  | run _ hmoves => exact slots_of_idle rfl (slots_scriptOperations hmoves.scriptOperation)
  | _ => rfl

theorem slots_control {t : Tid} (h : Moves cfg s t pc s' th)
    (hops : ∀ op ∈ th.ops, OperationOf t op) :
    slots.held s' + slots.thread th = slots.held s + slots.pc pc := by
  by_cases ht : t = .procer
  · subst ht
    cases h with
    | procer h => exact slots_procer h
  · apply slots_of_idle ?_ fun op hop => (hops op hop).slots_idle ht
    cases h with
    | ltsConex h => exact slots_ltsConex h
    | sts h => exact slots_sts h
    | configure h => exact slots_configure h
    | procer => exact absurd rfl ht
    | _ => rfl

def liveImages (s : Shared) : Finset Ptr := Finset.range s.allocated \ s.freed.toFinset

def building : Thread Operation Label → ℕ
  | ⟨.building _ _ _, _⟩ => 1
  | _ => 0

def unreturned (th : Thread Operation Label) : ℕ := if returnsSlot th.ops then 1 else 0

/-- An image in the hands of a thread: in its variables, or about to be put somewhere. -/
def inHands (p : Ptr) (th : Thread Operation Label) : ℕ :=
  (imagesAt th.pc).count p + (th.ops.flatMap imagesOf).count p

def places (cfg : Config) (st : PP) (p : Ptr) : ℕ :=
  stored p st.shared + ∑ t ∈ cfg.threads, inHands p (st.thread t)

theorem imageCount_thread (p : Ptr) (th : Thread Operation Label) :
    (imageCount p).thread th = inHands p th := by
  have hops : (imageCount p).ops th.ops = (th.ops.flatMap imagesOf).count p := by
    rw [Ledger.ops, List.count_flatMap]
    rfl
  rw [Ledger.thread, hops]
  rfl

section Slots

variable {ok : PP → Step → Prop} {st st' : PP} {a : Step} {ALG : Algorithm}
  {priorities : QueueName → ℤ}

theorem slotShape_initial (t : Tid) : SlotShape t (initialThread t) := by
  apply slotShape_of_idle (homeOf_initial t)
  by_cases ht : t = .procer
  · subst ht
    decide
  · exact fun op hop => (operationOf_initial t op hop).slots_idle ht

theorem slotShape_run (h : RunsTo (next cfg) ok (start cfg ALG priorities) st) (t : Tid) :
    SlotShape t (st.thread t) :=
  shape_run slotShape_initial slotShape_tail
    (fun hmoves hhome hops _ => slotShape_control hmoves hhome hops) h t

theorem slots_start (cfg : Config) (ALG : Algorithm) (priorities : QueueName → ℤ) :
    slots.total cfg.threads (start cfg ALG priorities) = cfg.MPS := by
  have hzero : ∀ t, slots.thread (initialThread t) = 0 := by
    intro t
    cases t <;> rfl
  have hsum : ∑ t ∈ cfg.threads, slots.thread (initialThread t) = 0 :=
    Finset.sum_eq_zero fun t _ => hzero t
  rw [Ledger.total]
  simp only [start, hsum, add_zero]
  simp [slots, initialValue]

theorem slots_run (h : RunsTo (next cfg) ok (start cfg ALG priorities) st) :
    slots.total cfg.threads st = cfg.MPS := by
  induction h with
  | start => exact slots_start cfg ALG priorities
  | step a hrun hok hnext ih =>
    have hhome := (operationOf_run hrun a.1).1
    rw [← ih]
    exact total_next slots_exec (fun _ _ _ hmoves =>
      slots_control hmoves (operationOf_control hmoves hhome)) hnext

theorem slots_pc {t : Tid} (h : homeOf pc t) (ht : t ≠ .ltsConex) : slots.pc pc = 0 := by
  cases pc with
  | building => exact absurd h ht
  | _ => rfl

theorem slots_threads (h : ∀ t, SlotShape t (st.thread t)) :
    ∑ t ∈ cfg.threads, slots.thread (st.thread t) =
      building (st.thread .ltsConex) + unreturned (st.thread .procer) := by
  have hltsConex : slots.thread (st.thread .ltsConex) = building (st.thread .ltsConex) := by
    rw [Ledger.thread, slots.ops_eq_zero ((h .ltsConex).idle (by decide)), add_zero]
    rcases st.thread .ltsConex with ⟨pc, ops⟩
    cases pc <;> rfl
  have hprocer : slots.thread (st.thread .procer) = unreturned (st.thread .procer) := by
    rw [Ledger.thread, slots_pc (h .procer).home (by decide), zero_add,
      (h .procer).tracks _ List.suffix_rfl, unreturned]
    dsimp only
    cases returnsSlot (st.thread .procer).ops <;> rfl
  rw [Finset.sum_eq_add_of_mem .ltsConex .procer (by simp [Config.threads])
    (by simp [Config.threads]) (by decide) fun t _ ht => ?_, hltsConex, hprocer]
  rw [Ledger.thread, slots_pc (h t).home ht.1, slots.ops_eq_zero ((h t).idle ht.2), add_zero]

/-- An image is freed at most once, and only after it has been built. -/
theorem freed_count_le (h : RunsTo (next cfg) ok (start cfg ALG priorities) st) (p : Ptr) :
    st.shared.freed.count p + (if st.shared.allocated ≤ p then 1 else 0) ≤ 1 := by
  have hle := imageCount_le (p := p) h
  rw [Ledger.total] at hle
  simp only [imageCount] at hle
  omega

theorem liveImages_card (h : RunsTo (next cfg) ok (start cfg ALG priorities) st) :
    (liveImages st.shared).card + st.shared.freed.length = st.shared.allocated := by
  have hnodup : st.shared.freed.Nodup := by
    refine List.nodup_iff_count_le_one.mpr fun p => ?_
    have hle := freed_count_le h p
    omega
  have hsubset : st.shared.freed.toFinset ⊆ Finset.range st.shared.allocated := by
    intro p hp
    rw [List.mem_toFinset] at hp
    have hle := freed_count_le h p
    have hpos := List.count_pos_iff.mpr hp
    rw [Finset.mem_range]
    by_contra hge
    rw [if_pos (not_lt.mp hge)] at hle
    omega
  have hcard := Finset.card_sdiff_add_card_eq_card hsubset
  rw [List.toFinset_card_of_nodup hnodup, Finset.card_range] at hcard
  exact hcard

def drainsIntoEmptyList (st : PP) (a : Step) : Bool :=
  match st.thread a.1 with
  | ⟨.drain _ (_ + 1) [] _, []⟩ => true
  | _ => false

theorem not_loses (hquantum : 0 ≤ cfg.quantum)
    (h : RunsTo (next cfg) ok (start cfg ALG priorities) st) (ha : ¬ drainsIntoEmptyList st a)
    (hops : (st.thread a.1).ops = []) : ¬ Loses cfg st.shared (st.thread a.1).pc := by
  intro hloses
  have hthread : st.thread a.1 = ⟨(st.thread a.1).pc, []⟩ := by rw [← hops]
  have hhome := home_run h a.1
  cases hpc : (st.thread a.1).pc with
  | drain key remaining prioList caller =>
    rw [hpc] at hloses hthread
    cases remaining with
    | zero => exact hloses
    | succ remaining =>
      obtain rfl : prioList = [] := hloses
      exact ha (by rw [drainsIntoEmptyList, hthread])
  | execute p code e =>
    rw [hpc] at hloses hhome
    rw [show a.1 = .procer from hhome] at hpc
    obtain ⟨hpoint, hfin, hio, hsuspend, hne⟩ := hloses
    rcases (accounted_run hquantum h p code e hpc).2 hpoint with heq | heq | heq | heq
    · rw [hfin] at heq
      cases heq
    · rw [hio] at heq
      cases heq
    · exact hne heq
    · rw [hsuspend] at heq
      cases heq
  | _ =>
    rw [hpc] at hloses
    exact hloses

/-- In every run in which the draining loop never inserts into an empty list, every image built
and not freed is in exactly one place, a freed one in none, and the images together with the
tokens of `MPS_sem` and those on their way make up `MPS`. -/
theorem no_process_lost (cfg : Config) (hquantum : 0 ≤ cfg.quantum) (ALG : Algorithm)
    (priorities : QueueName → ℤ) (st : PP)
    (h : RunsTo (next cfg) (fun st a => ¬ drainsIntoEmptyList st a) (start cfg ALG priorities)
      st) :
    (∀ p < st.shared.allocated, (p ∉ st.shared.freed → places cfg st p = 1) ∧
      (p ∈ st.shared.freed → places cfg st p = 0)) ∧
      (liveImages st.shared).card + building (st.thread .ltsConex) +
        unreturned (st.thread .procer) + st.shared.sem .mpsSem = cfg.MPS := by
  refine ⟨fun p hp => ?_, ?_⟩
  · have htotal := imageCount_eq (p := p) (fun st a hrun ha hops =>
      not_loses hquantum hrun ha hops) h
    have hplaces : (imageCount p).total cfg.threads st = places cfg st p +
        st.shared.freed.count p := by
      rw [Ledger.total, places, Finset.sum_congr rfl fun t _ => imageCount_thread p (st.thread t)]
      simp only [imageCount, if_neg (not_le.mpr hp)]
      omega
    rw [hplaces] at htotal
    refine ⟨fun hfreed => ?_, fun hfreed => ?_⟩
    · rw [List.count_eq_zero.mpr hfreed] at htotal
      exact htotal
    · have hpos := List.count_pos_iff.mpr hfreed
      omega
  · have htotal := slots_run h
    have hcard := liveImages_card h
    rw [Ledger.total, slots_threads (slotShape_run h)] at htotal
    simp only [slots] at htotal
    omega

theorem no_process_lost_admitted : ∃ st : PP, st.shared.allocated = 1 ∧
    (∀ p < st.shared.allocated, (p ∉ st.shared.freed → places smallConfig st p = 1) ∧
      (p ∈ st.shared.freed → places smallConfig st p = 0)) ∧
      (liveImages st.shared).card + building (st.thread .ltsConex) +
        unreturned (st.thread .procer) + st.shared.sem .mpsSem = smallConfig.MPS := by
  have hrun : ((follow (next smallConfig) (fun st a => !drainsIntoEmptyList st a)
      (start smallConfig .pri fun _ => 0) (goes .ltsConex 3 ++ submits idleScript 0 ++
        goes .sts 30)).any fun st => st.shared.allocated == 1) = true := by
    decide +kernel
  obtain ⟨st, hst, hallocated⟩ := (Option.any_eq_true _ _).mp hrun
  exact ⟨st, by simpa using hallocated,
    no_process_lost smallConfig (by decide) .pri (fun _ => 0) st
      (RunsTo.of_follow (fun st a h => by simpa using h) _ hst)⟩

/-- `pp.config` is changed to `PRI` while an image is ready. -/
theorem reload_loses_process : ¬ ∀ (cfg : Config) (ALG : Algorithm) (priorities : QueueName → ℤ)
    (st : PP), RunsTo (next cfg) (fun _ _ => True) (start cfg ALG priorities) st →
      ∀ p < st.shared.allocated, p ∉ st.shared.freed → places cfg st p = 1 := by
  intro h
  have hrun : ((follow (next smallConfig) (fun _ _ => true)
      (start smallConfig .fifo fun _ => 0) (goes .ltsConex 3 ++ submits idleScript 0 ++
        goes .sts 19 ++ [(.configure, .reload .pri fun _ => 0)] ++ goes .configure 7)).any
          fun st => st.shared.allocated == 1 && st.shared.freed == [] &&
            places smallConfig st 0 == 0) = true := by
    decide +kernel
  obtain ⟨st, hst, hvalues⟩ := (Option.any_eq_true _ _).mp hrun
  simp only [Bool.and_eq_true, beq_iff_eq] at hvalues
  obtain ⟨⟨hallocated, hfreed⟩, hplaces⟩ := hvalues
  have hone := h smallConfig .fifo (fun _ => 0) st (RunsTo.of_follow (fun _ _ _ => trivial) _ hst)
    0 (by rw [hallocated]; decide) (by rw [hfreed]; exact List.not_mem_nil)
  rw [hplaces] at hone
  cases hone

end Slots

end PP
end Sisop

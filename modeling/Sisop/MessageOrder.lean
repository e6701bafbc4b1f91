import Sisop.ConnectionOwnership

/-!
# The order of messages

A log is kept of what `PROCER` appends to `sendingList` and of what `LTSconex` takes out of it.
For every descriptor the messages taken followed by those still waiting are the messages appended,
in this order. After the report `'T'` of a process nobody appends a message of it: `PROCER` frees
its image next, and what has been freed is in no list a dispatch could take it from.
-/

namespace Sisop

/-- The messages appended so far, and those taken with the descriptors they were taken for, the
first one first. -/
structure Traffic where
  appended : List (TMsg × Ptr)
  taken : List (ℕ × (TMsg × Ptr))

def forClient (fd : ℕ) (messages : List (TMsg × Ptr)) : List (TMsg × Ptr) :=
  messages.filter (·.1.fd == fd)

def takenFor (fd : ℕ) (taken : List (ℕ × (TMsg × Ptr))) : List (TMsg × Ptr) :=
  (taken.filter (·.1 == fd)).map (·.2)

namespace PP

def appends (st : PP) (a : Step) : List (TMsg × Ptr) :=
  match (st.thread a.1).ops with
  | .addMsg m origin :: _ => [(m, origin)]
  | _ => []

def takes (st : PP) (a : Step) : List (ℕ × (TMsg × Ptr)) :=
  match st.thread a.1 with
  | ⟨.getting fd, []⟩ =>
    match list_fd_msg_get st.shared.sendingList fd with
    | some (some r) => [(fd, r.1)]
    | _ => []
  | _ => []

def nextLogged (cfg : Config) (x : PP × Traffic) (a : Step) : Option (PP × Traffic) :=
  (next cfg x.1 a).map fun st =>
    (st, ⟨x.2.appended ++ appends x.1 a, x.2.taken ++ takes x.1 a⟩)

def startLogged (cfg : Config) (ALG : Algorithm) (priorities : QueueName → ℤ) : PP × Traffic :=
  (start cfg ALG priorities, ⟨[], []⟩)

end PP

section Lists

variable {lista lista' : List (TMsg × Ptr)} {fd : ℕ} {m : TMsg × Ptr}

theorem forClient_append (fd : ℕ) (xs ys : List (TMsg × Ptr)) :
    forClient fd (xs ++ ys) = forClient fd xs ++ forClient fd ys := List.filter_append ..

theorem takenFor_append (fd : ℕ) (xs ys : List (ℕ × (TMsg × Ptr))) :
    takenFor fd (xs ++ ys) = takenFor fd xs ++ takenFor fd ys := by
  rw [takenFor, List.filter_append, List.map_append]
  rfl

/-- The first message for the descriptor is taken, wherever it stands, and no other one. -/
theorem list_fd_msg_get_split (h : list_fd_msg_get lista fd = some (some (m, lista'))) :
    ∃ before after, lista = before ++ m :: after ∧ lista' = before ++ after ∧ m.1.fd = fd ∧
      forClient fd before = [] := by
  unfold list_fd_msg_get at h
  split_ifs at h
  split at h
  case h_1 => cases h
  case h_2 i hi =>
    obtain ⟨hlt, hfd, hbefore⟩ := List.findIdx?_eq_some_iff_getElem.mp hi
    rw [List.getElem?_eq_getElem hlt] at h
    cases h
    refine ⟨lista.take i, lista.drop (i + 1), ?_, List.eraseIdx_eq_take_drop_succ .., ?_, ?_⟩
    · rw [List.getElem_cons_drop, List.take_append_drop]
    · simpa using hfd
    · refine List.filter_eq_nil_iff.mpr fun r hr => ?_
      obtain ⟨j, hj, rfl⟩ := List.mem_take_iff_getElem.mp hr
      simpa using hbefore j (by omega)

/-- Whose messages are taken is decided by the descriptor alone. -/
theorem forClient_of_get (h : list_fd_msg_get lista fd = some (some (m, lista'))) (fd' : ℕ) :
    forClient fd' lista = takenFor fd' [(fd, m)] ++ forClient fd' lista' := by
  obtain ⟨before, after, rfl, rfl, hfd, hbefore⟩ := list_fd_msg_get_split h
  have hone : forClient fd' [m] = takenFor fd' [(fd, m)] := by
    by_cases heq : fd = fd' <;> simp [forClient, takenFor, hfd, heq]
  have hcons : m :: after = [m] ++ after := rfl
  rw [hcons, forClient_append, forClient_append, forClient_append, hone]
  by_cases heq : fd' = fd
  · rw [heq, hbefore]
    rfl
  · have hnone : takenFor fd' [(fd, m)] = [] := by simp [takenFor, Ne.symm heq]
    rw [hnone]
    rfl

theorem list_fd_msg_get_defined (h : lista ≠ []) : list_fd_msg_get lista fd ≠ none := by
  unfold list_fd_msg_get
  rw [if_neg h]
  split
  case h_1 => simp
  case h_2 i hi =>
    obtain ⟨hlt, -⟩ := List.findIdx?_eq_some_iff_getElem.mp hi
    simp [List.getElem?_eq_getElem hlt]

end Lists

namespace PP

variable {cfg : Config} {s s' : Shared} {pc : Label} {th : Thread Operation Label} {fd : ℕ}

theorem sendingList_exec {t : Tid} {op : Operation} (h : op.exec t s = some s') :
    (∃ m origin, op = .addMsg m origin ∧ s'.sendingList = s.sendingList ++ [(m, origin)]) ∨
      ((∀ m origin, op ≠ .addMsg m origin) ∧ s'.sendingList = s.sendingList) := by
  cases op with
  | addMsg m origin =>
    cases h
    exact .inl ⟨m, origin, rfl, rfl⟩
  | lock m | unlock m | wait m =>
    simp only [Operation.exec] at h
    split_ifs at h
    cases h
    exact .inr ⟨by simp, rfl⟩
  | _ =>
    cases h
    exact .inr ⟨by simp, rfl⟩

theorem sendingList_control {t : Tid} (h : Moves cfg s t pc s' th)
    (hpc : ∀ fd, pc ≠ .getting fd) : s'.sendingList = s.sendingList := by
  cases h with
  | ltsConex h =>
    cases h with
    | message => exact absurd rfl (hpc _)
    | _ => rfl
  | sts h =>
    cases h with
    | orderInsert h => cases h <;> rfl
    | _ => rfl
  | configure h =>
    cases h with
    | orderInsert h => cases h <;> rfl
    | _ => rfl
  | procer h => cases h <;> rfl
  | _ => rfl

theorem control_getting {t : Tid} {c : Choice}
    (h : control cfg t (.getting fd) c s = some (s', th)) :
    (list_fd_msg_get s.sendingList fd = some none ∧ s'.sendingList = s.sendingList) ∨
      ∃ m, list_fd_msg_get s.sendingList fd = some (some (m, s'.sendingList)) := by
  have hmoves := moves_of_control h
  cases hmoves with
  | ltsConex =>
    cases c with
    | go =>
      obtain ⟨r, hr, h⟩ := Option.map_eq_some_iff.mp h
      rcases r with _ | ⟨m, sendingList⟩
      · cases h
        exact .inl ⟨hr, rfl⟩
      · cases h
        exact .inr ⟨m, hr⟩
    | _ => cases h
  | sts hmoves =>
    cases hmoves with
    | orderInsert hmoves => cases hmoves
  | configure hmoves =>
    cases hmoves with
    | orderInsert hmoves => cases hmoves
  | procer hmoves => cases hmoves

section Steps

variable {st st' : PP} {a : Step}

theorem takes_eq_nil_of_ops (h : (st.thread a.1).ops ≠ []) : takes st a = [] := by
  unfold takes
  split
  case h_1 hthread =>
    rw [hthread] at h
    exact absurd rfl h
  case h_2 => rfl

theorem takes_eq_nil_of_pc (h : ∀ fd, (st.thread a.1).pc ≠ .getting fd) : takes st a = [] := by
  unfold takes
  split
  case h_1 fd hthread =>
    rw [hthread] at h
    exact absurd rfl (h fd)
  case h_2 => rfl

theorem appends_eq_nil (h : ∀ m origin, .addMsg m origin ∉ (st.thread a.1).ops) :
    appends st a = [] := by
  unfold appends
  split
  case h_1 hops => exact absurd (hops ▸ List.mem_cons_self) (h _ _)
  case h_2 => rfl

/-- What waits for a client before a step, and what the step appends, is what it takes and what
waits behind it. -/
theorem waiting_next (h : next cfg st a = some st') (fd : ℕ) :
    forClient fd st.shared.sendingList ++ forClient fd (appends st a) =
      takenFor fd (takes st a) ++ forClient fd st'.shared.sendingList := by
  rcases Machine.step_cases (next_eq_some h).2 with
    ⟨op, ops, s, hops, hexec, rfl⟩ | ⟨s, th, hops, hcontrol, rfl⟩
  · rw [takes_eq_nil_of_ops (by simp [hops])]
    rcases sendingList_exec hexec with ⟨m, origin, rfl, hlist⟩ | ⟨hop, hlist⟩
    · simp only [hlist, appends, hops, forClient_append]
      rfl
    · have hnone : appends st a = [] := by
        unfold appends
        split
        case h_1 hops' =>
          rw [hops] at hops'
          cases hops'
          exact absurd rfl (hop _ _)
        case h_2 => rfl
      rw [hnone, hlist]
      exact List.append_nil _
  · have hnone : appends st a = [] := appends_eq_nil (by simp [hops])
    have hthread : st.thread a.1 = ⟨(st.thread a.1).pc, []⟩ := by rw [← hops]
    rw [hnone]
    refine (List.append_nil _).trans ?_
    by_cases hpc : ∃ fd, (st.thread a.1).pc = .getting fd
    · obtain ⟨fd', hpc⟩ := hpc
      rw [hpc] at hcontrol hthread
      rcases control_getting hcontrol with ⟨hget, hlist⟩ | ⟨m, hget⟩
      · simp only [takes, hthread, hget, hlist]
        rfl
      · simp only [takes, hthread, hget]
        exact forClient_of_get hget fd
    · push Not at hpc
      rw [takes_eq_nil_of_pc hpc, sendingList_control (moves_of_control hcontrol) hpc]
      rfl

/-- The list that has been found non-empty is not empty when it is searched: nobody else takes
messages. -/
def Searchable (st : PP) : Prop :=
  ∀ fd, (st.thread .ltsConex).pc = .getting fd → st.shared.sendingList ≠ []

theorem control_sizing {c : Choice}
    (h : LTSconex.control cfg s (.sizing fd) c = some (s', th)) (hpc : th.pc ≠ .epollWait) :
    s'.sendingList ≠ [] := by
  cases c with
  | go =>
    simp only [LTSconex.control] at h
    split_ifs at h with hlength
    · cases h
      exact List.length_pos_iff.mp hlength
    · cases h
      exact absurd rfl hpc
  | _ => cases h

theorem searchable_next (h : next cfg st a = some st') (hhome : homeOf (st.thread a.1).pc a.1)
    (hst : Searchable st) : Searchable st' := by
  intro fd hpc
  rcases Machine.step_cases (next_eq_some h).2 with
    ⟨op, ops, s, hops, hexec, rfl⟩ | ⟨s, th, hops, hcontrol, rfl⟩
  · have hsame : (Function.update st.thread a.1 ⟨(st.thread a.1).pc, ops⟩ .ltsConex).pc =
        (st.thread .ltsConex).pc := by
      by_cases ha : a.1 = .ltsConex
      · rw [ha, Function.update_self]
      · rw [Function.update_of_ne (Ne.symm ha)]
    have hne := hst fd (hsame ▸ hpc)
    rcases sendingList_exec hexec with ⟨m, origin, -, hlist⟩ | ⟨-, hlist⟩
    · simp [hlist]
    · exact hlist ▸ hne
  · dsimp only at hpc ⊢
    by_cases ha : a.1 = .ltsConex
    · rw [ha, Function.update_self] at hpc
      have hmoves := moves_of_control hcontrol
      rw [ha] at hcontrol hmoves
      generalize (st.thread .ltsConex).pc = pc₀ at hcontrol hmoves
      have hsizing : ∃ fd', pc₀ = .sizing fd' := by
        cases hmoves with
        | ltsConex hmoves =>
          cases hmoves with
          | someMessages fd' => exact ⟨fd', rfl⟩
          | _ => cases hpc
      obtain ⟨fd', rfl⟩ := hsizing
      exact control_sizing hcontrol (by rw [hpc]; simp)
    · rw [Function.update_of_ne (Ne.symm ha)] at hpc
      have hnot : ∀ fd, (st.thread a.1).pc ≠ .getting fd := by
        intro fd' heq
        rw [heq] at hhome
        exact ha hhome
      rw [sendingList_control (moves_of_control hcontrol) hnot]
      exact hst fd hpc

end Steps

section LastReport

/-- A pending report `'T'` is the last one, and the image is freed behind it. -/
def ReportsLast (th : Thread Operation Label) : Prop :=
  ∀ m p rest, .addMsg m p :: rest <:+ th.ops → m.type = 84 →
    th.pc = .popReady ∧ .freeImage p ∈ rest ∧ ∀ m' p', .addMsg m' p' ∉ rest

theorem reportsLast_of_silent (h : ∀ m p, .addMsg m p ∈ th.ops → m.type ≠ 84) :
    ReportsLast th := by
  intro m p rest hsuffix htype
  exact absurd htype (h m p (hsuffix.subset List.mem_cons_self))

theorem reportsLast_tail (_ : Tid) (pc : Label) (op : Operation) (ops : List Operation)
    (h : ReportsLast ⟨pc, op :: ops⟩) : ReportsLast ⟨pc, ops⟩ :=
  fun m p rest hsuffix => h m p rest (hsuffix.trans (List.suffix_cons op ops))

theorem reportsLast_procer (h : PROCER.Moves cfg s pc s' th) : ReportsLast th := by
  cases h with
  | @pop p ps code =>
    exact reportsLast_of_silent fun m origin hmem =>
      absurd hmem (addMsg_not_dispatch p (s.image p) m origin)
  | run _ hmoves =>
    refine reportsLast_of_silent fun m origin hmem => ?_
    cases hmoves.scriptOperation _ hmem
    show (78 : UInt8) ≠ 84
    decide
  | @finished p code e =>
    intro m p' rest hsuffix htype
    refine ⟨rfl, ?_⟩
    simp [PROCER.finished, PROCER.wait, logWrite, sendMsg, List.suffix_cons_iff] at hsuffix
    obtain ⟨⟨-, rfl⟩, rfl⟩ := hsuffix
    simp
  | suspended =>
    refine reportsLast_of_silent fun m origin hmem => ?_
    simp [PROCER.suspended, PROCER.wait, logWrite, sendMsg] at hmem
    rw [hmem.1]
    show (83 : UInt8) ≠ 84
    decide
  | _ =>
    refine reportsLast_of_silent fun m origin hmem => ?_
    simp [PROCER.endOfQuantum, PROCER.wait, logWrite, enqueueForSTS] at hmem

theorem reportsLast_control {t : Tid} (h : Moves cfg s t pc s' th) : ReportsLast th := by
  by_cases ht : t = .procer
  · subst ht
    cases h with
    | procer h => exact reportsLast_procer h
  · refine reportsLast_of_silent fun m origin hmem => ?_
    exact absurd ((messageShape_control h).reports m origin hmem) ht

/-- What the reports `'T'` leave behind: nobody reports on these processes any more. -/
structure Closed (s : Shared) (procer : Thread Operation Label) (p : Ptr) : Prop where
  freed : p ∈ s.freed ∨ .freeImage p ∈ procer.ops
  silent : ∀ m, .addMsg m p ∉ procer.ops
  notRun : ∀ code e, procer.pc ≠ .execute p code e

theorem Closed.procer {p : Ptr} (hp : p ∈ s.freed) (hnotRun : ∀ code e, pc ≠ .execute p code e)
    (hlpl : ∀ ps, s.queue .lpl ≠ p :: ps) (h : PROCER.Moves cfg s pc s' th) :
    Closed s' th p := by
  have hfreed : p ∈ s'.freed := by
    rw [freed_control (.procer h)]
    exact hp
  cases h with
  | @pop p' ps code hqueue =>
    refine ⟨.inl hfreed, fun m => addMsg_not_dispatch p' (s.image p') m p, fun code e hpc => ?_⟩
    cases hpc
    exact hlpl _ hqueue
  | run _ hmoves =>
    refine ⟨.inl hfreed, fun m hmem => ?_, fun code e hpc => ?_⟩
    · cases hmoves.scriptOperation _ hmem
      exact hnotRun _ _ rfl
    · cases hpc
      exact hnotRun _ _ rfl
  | finished | suspended =>
    refine ⟨.inl hfreed, fun m hmem => ?_, by simp⟩
    simp [PROCER.finished, PROCER.suspended, PROCER.wait, logWrite, sendMsg] at hmem
    exact hnotRun _ _ (by rw [hmem.2])
  | _ =>
    refine ⟨.inl hfreed, fun m hmem => ?_, by simp⟩
    simp [PROCER.endOfQuantum, PROCER.wait, logWrite, enqueueForSTS] at hmem

end LastReport

section Runs

variable {st st' : PP} {a : Step} {x : PP × Traffic} {ALG : Algorithm} {priorities : QueueName → ℤ}

theorem mem_freed_next (h : next cfg st a = some st') {p : Ptr} (hp : p ∈ st.shared.freed) :
    p ∈ st'.shared.freed := by
  rcases shared_next h with ⟨op, ops, -, hexec, -⟩ | ⟨-, hmoves, -⟩
  · rcases freed_exec hexec with heq | ⟨p', -, heq⟩
    · exact heq ▸ hp
    · exact heq ▸ List.mem_cons_of_mem p' hp
  · exact freed_control hmoves ▸ hp

theorem closed_next (hrun : RunsTo (next cfg) (fun _ _ => True) (start cfg ALG priorities) st)
    (h : next cfg st a = some st') {p : Ptr} (hp : Closed st.shared (st.thread .procer) p) :
    Closed st'.shared (st'.thread .procer) p := by
  rcases thread_next h .procer with ⟨-, hth⟩ | ⟨op, ops, -, hthread, hexec, hth⟩ |
    ⟨-, hthread, hmoves⟩
  · rw [hth]
    exact ⟨hp.freed.imp_left (mem_freed_next h), hp.silent, hp.notRun⟩
  · rw [hthread] at hp
    rw [hth]
    refine ⟨?_, fun m hmem => hp.silent m (List.mem_cons_of_mem _ hmem), hp.notRun⟩
    rcases hp.freed with hfreed | hmem
    · exact .inl (mem_freed_next h hfreed)
    · rcases List.mem_cons.mp hmem with rfl | hmem
      · refine .inl ?_
        rw [← Option.some.inj hexec]
        exact List.mem_cons_self
      · exact .inr hmem
  · rw [hthread] at hp
    have hfreed := hp.freed.resolve_right (List.not_mem_nil)
    have hlpl : ∀ ps, st.shared.queue .lpl ≠ p :: ps := by
      intro ps hqueue
      refine (live_of_place hrun (.inl (stored_pos (.inl ⟨.lpl, ?_⟩)))).2 hfreed
      rw [hqueue]
      exact List.mem_cons_self
    cases hmoves with
    | procer hmoves => exact .procer hfreed hp.notRun hlpl hmoves

structure Logged (cfg : Config) (ALG : Algorithm) (priorities : QueueName → ℤ) (x : PP × Traffic) :
    Prop where
  run : RunsTo (next cfg) (fun _ _ => True) (start cfg ALG priorities) x.1
  messages : ∀ t, MessageShape t (x.1.thread t)
  reports : ∀ t, ReportsLast (x.1.thread t)
  searchable : Searchable x.1
  inOrder : ∀ fd, forClient fd x.2.appended =
    takenFor fd x.2.taken ++ forClient fd x.1.shared.sendingList
  closed : ∀ m p, (m, p) ∈ x.2.appended → m.type = 84 →
    Closed x.1.shared (x.1.thread .procer) p
  last : x.2.appended.Pairwise fun r r' => r.1.type = 84 → r'.2 ≠ r.2

theorem closed_of_appends (h : next cfg st a = some st')
    (hmessages : ∀ t, MessageShape t (st.thread t)) (hreports : ∀ t, ReportsLast (st.thread t))
    {m : TMsg} {p : Ptr} (hmem : (m, p) ∈ appends st a) (htype : m.type = 84) :
    Closed st'.shared (st'.thread .procer) p := by
  unfold appends at hmem
  split at hmem
  case h_1 m' origin rest hops =>
    cases List.mem_singleton.mp hmem
    have hprocer : a.1 = .procer := by
      refine (hmessages a.1).reports m p ?_
      rw [hops]
      exact List.mem_cons_self
    rw [hprocer] at hops
    obtain ⟨hpc, hfree, hsilent⟩ := hreports .procer m p rest (hops ▸ List.suffix_rfl) htype
    rcases thread_next h .procer with ⟨hne, -⟩ | ⟨op, ops, -, hthread, -, hth⟩ | ⟨-, hthread, -⟩
    · exact absurd hprocer hne
    · rw [hthread] at hops
      cases hops
      rw [hth]
      refine ⟨.inr hfree, fun m' => hsilent m' p, fun code e => ?_⟩
      rw [hpc]
      simp
    · rw [hthread] at hops
      cases hops
  case h_2 => cases hmem

theorem mem_ops_of_appends {m : TMsg} {p : Ptr} (h : (m, p) ∈ appends st a) :
    .addMsg m p ∈ (st.thread a.1).ops := by
  unfold appends at h
  split at h
  case h_1 hops =>
    cases List.mem_singleton.mp h
    rw [hops]
    exact List.mem_cons_self
  case h_2 => cases h

theorem reportsLast_initial (t : Tid) : ReportsLast (initialThread t) := by
  refine reportsLast_of_silent fun m origin hmem => ?_
  have hprocer := (messageShape_initial t).reports m origin hmem
  subst hprocer
  simp [initialThread, PROCER.wait] at hmem

theorem logged_start : Logged cfg ALG priorities (startLogged cfg ALG priorities) :=
  ⟨.start, messageShape_initial, reportsLast_initial, by simp [Searchable, startLogged, start,
    initialThread], fun _ => rfl, by simp [startLogged], by simp [startLogged]⟩

theorem logged_next {x' : PP × Traffic} (h : nextLogged cfg x a = some x')
    (hx : Logged cfg ALG priorities x) : Logged cfg ALG priorities x' := by
  obtain ⟨st', hnext, rfl⟩ := Option.map_eq_some_iff.mp h
  have hmessages := shape_next messageShape_tail (fun hmoves _ => messageShape_control hmoves)
    hnext hx.messages
  have hreports := shape_next (P := fun _ th => ReportsLast th) reportsLast_tail
    (fun hmoves _ => reportsLast_control hmoves) hnext hx.reports
  have hsearchable := searchable_next hnext (home_run hx.run a.1) hx.searchable
  refine ⟨hx.run.step a trivial hnext, hmessages, hreports, hsearchable, fun fd => ?_, ?_, ?_⟩
  · calc forClient fd (x.2.appended ++ appends x.1 a)
        = takenFor fd x.2.taken ++
            (forClient fd x.1.shared.sendingList ++ forClient fd (appends x.1 a)) := by
          rw [forClient_append, hx.inOrder, List.append_assoc]
      _ = takenFor fd (x.2.taken ++ takes x.1 a) ++ forClient fd st'.shared.sendingList := by
          rw [waiting_next hnext, takenFor_append, List.append_assoc]
  · intro m p hmem htype
    rcases List.mem_append.mp hmem with hmem | hmem
    · exact closed_next hx.run hnext (hx.closed m p hmem htype)
    · exact closed_of_appends hnext hx.messages hx.reports hmem htype
  · refine List.pairwise_append.mpr ⟨hx.last, ?_, fun r hr r' hr' htype heq => ?_⟩
    · unfold appends
      split
      case h_1 => exact List.pairwise_singleton ..
      case h_2 => exact .nil
    · have hops := mem_ops_of_appends hr'
      rw [(hx.messages a.1).reports r'.1 r'.2 hops, heq] at hops
      exact (hx.closed r.1 r.2 hr htype).silent r'.1 hops

theorem logged_run (h : RunsTo (nextLogged cfg) (fun _ _ => True)
    (startLogged cfg ALG priorities) x) : Logged cfg ALG priorities x :=
  h.invariant logged_start fun _ _ _ hx _ hnext => logged_next hnext hx

/-- In every run, whatever the threads do between the sizing of `sendingList` and the search in
it: for every descriptor the messages taken for it are the first ones of those appended for it,
the others still wait in their order, a search never meets an empty list, and after its `'T'` no
further message of a process is appended. -/
theorem messages_in_order (cfg : Config) (ALG : Algorithm) (priorities : QueueName → ℤ)
    (x : PP × Traffic) (h : RunsTo (nextLogged cfg) (fun _ _ => True)
      (startLogged cfg ALG priorities) x) :
    (∀ fd, forClient fd x.2.appended =
      takenFor fd x.2.taken ++ forClient fd x.1.shared.sendingList) ∧
      (∀ fd, (x.1.thread .ltsConex).pc = .getting fd →
        list_fd_msg_get x.1.shared.sendingList fd ≠ none) ∧
      x.2.appended.Pairwise fun r r' => r.1.type = 84 → r'.2 ≠ r.2 := by
  have hx := logged_run h
  exact ⟨hx.inOrder, fun fd hpc => list_fd_msg_get_defined (hx.searchable fd hpc), hx.last⟩

theorem messages_in_order_report : ∃ x : PP × Traffic,
    takenFor 4 x.2.taken = [(⟨4, 84, []⟩, 0)] ∧
      (∀ fd, forClient fd x.2.appended =
        takenFor fd x.2.taken ++ forClient fd x.1.shared.sendingList) ∧
      (∀ fd, (x.1.thread .ltsConex).pc = .getting fd →
        list_fd_msg_get x.1.shared.sendingList fd ≠ none) ∧
      x.2.appended.Pairwise fun r r' => r.1.type = 84 → r'.2 ≠ r.2 := by
  have hrun : ((follow (nextLogged smallConfig) (fun _ _ => true)
      (startLogged smallConfig .fifo fun _ => 0) (goes .ltsConex 3 ++ submits idleScript 0 ++
        goes .sts 19 ++ goes .procer 21 ++ delivers 4)).any fun x =>
          takenFor 4 x.2.taken == [(⟨4, 84, []⟩, 0)]) = true := by
    decide +kernel
  obtain ⟨x, hx, htaken⟩ := (Option.any_eq_true _ _).mp hrun
  exact ⟨x, by simpa using htaken, messages_in_order smallConfig .fifo (fun _ => 0) x
    (RunsTo.of_follow (fun _ _ _ => trivial) _ hx)⟩

end Runs

end PP
end Sisop

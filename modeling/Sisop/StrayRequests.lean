import Sisop.ThreadSteps

/-!
# What a request costs

`LTSconex` handles a readable descriptor while the other threads go on. An account is kept of
what its own steps do to `MMP_sem`, `LPS` and `LPR`. The slot it takes first is given back on
every path but two: a frame of another type than `'R'`, and a search in an empty `LPS`.
-/

namespace Sisop

variable {cfg : Config} {fd : ℕ} {arrived : ℕ × ℕ} {net : List UInt8} {stale : Stale}

/-- `tokens` is the change of `MMP_sem`; `taken` left `LPS`, `given` went to the end of `LPR`;
`kept`: no step touched either list. -/
structure Account where
  tokens : ℤ
  taken : List Ptr
  given : List Ptr
  kept : Bool
  deriving DecidableEq

namespace Account

def empty : Account := ⟨0, [], [], true⟩

def add (s s' : Shared) (account : Account) : Account where
  tokens := account.tokens + (s'.sem .mmpSem - s.sem .mmpSem)
  taken := account.taken ++ s.LPS.diff s'.LPS
  given := account.given ++ (s'.queue .lpr).drop (s.queue .lpr).length
  kept := account.kept && decide (s'.LPS = s.LPS ∧ s'.queue .lpr = s.queue .lpr)

def Moved (account : Account) : Prop := ∃ p, account.taken = [p] ∧ account.given = [p]

def Unchanged (account : Account) : Prop := account.tokens = 0 ∧ account.kept = true

end Account

section Accounts

variable {s s' : Shared} {account : Account}

theorem diff_of_perm_append {l l' : List Ptr} (removed : List Ptr) (h : l.Perm (removed ++ l')) :
    (l.diff l').Perm removed := by
  rw [← Multiset.coe_eq_coe, ← Multiset.coe_sub, Multiset.coe_eq_coe.mpr h, ← Multiset.coe_add,
    add_tsub_cancel_right]

theorem diff_self (l : List Ptr) : l.diff l = [] :=
  List.perm_nil.mp (diff_of_perm_append [] (.refl _))

theorem Account.add_of_same (account : Account) (hsem : s'.sem .mmpSem = s.sem .mmpSem)
    (hLPS : s'.LPS = s.LPS) (hLPR : s'.queue .lpr = s.queue .lpr) :
    account.add s s' = account := by
  obtain ⟨tokens, taken, given, kept⟩ := account
  simp [Account.add, hsem, hLPS, hLPR, diff_self]

theorem Account.add_post (account : Account) (s : Shared) :
    account.add s (s.post .mmpSem) = { account with tokens := account.tokens + 1 } := by
  obtain ⟨tokens, taken, given, kept⟩ := account
  simp [Account.add, Shared.post, diff_self]

theorem Account.add_tryWait (account : Account) {s : Shared} (h : 0 < s.sem .mmpSem) :
    account.add s (s.tryWait .mmpSem) = { account with tokens := account.tokens - 1 } := by
  obtain ⟨tokens, taken, given, kept⟩ := account
  have hpred : ((s.sem .mmpSem - 1 : ℕ) : ℤ) - s.sem .mmpSem = -1 := by omega
  simp [Account.add, Shared.tryWait, hpred, diff_self, sub_eq_add_neg]

theorem Account.add_take (account : Account) {s s' : Shared} {p : Ptr}
    (hLPS : s.LPS.Perm (p :: s'.LPS)) (hsem : s'.sem .mmpSem = s.sem .mmpSem)
    (hLPR : s'.queue .lpr = s.queue .lpr) :
    account.add s s' = { account with taken := account.taken ++ [p], kept := false } := by
  obtain ⟨tokens, taken, given, kept⟩ := account
  have hdiff : s.LPS.diff s'.LPS = [p] :=
    List.perm_singleton.mp (diff_of_perm_append [p] hLPS)
  have hne : s'.LPS ≠ s.LPS := by
    intro heq
    have hlength := hLPS.length_eq
    rw [heq] at hlength
    simp at hlength
  simp [Account.add, hsem, hLPR, hdiff, hne]

theorem Account.add_give (account : Account) (s : Shared) (p : Ptr) :
    account.add s ((s.setQueue .lpr (s.queue .lpr ++ [p])).post .lprEmpty) =
      { account with given := account.given ++ [p], kept := false } := by
  obtain ⟨tokens, taken, given, kept⟩ := account
  simp [Account.add, Shared.post, Shared.setQueue, diff_self]

/-- The operations of a request that neither give a slot back nor fill `LPR` cost nothing. -/
theorem Account.add_exec (account : Account) {op : Operation} {t : Tid}
    (hop : (∃ fd, op ∈ LTSconex.notRestored fd) ∨ ∃ p, op ∈ LTSconex.resume p)
    (hpost : op ≠ .post .mmpSem) (hgive : ∀ p, op ≠ .enqueue .lpr p)
    (h : op.exec t s = some s') : account.add s s' = account := by
  have hkinds : (∃ m, op = .lock m) ∨ (∃ m, op = .unlock m) ∨ (∃ fd, op = .close fd) ∨
      (∃ p, op = .readImage p) ∨ op = .post .stsInEmpty ∨ op = .post .mmpSem ∨
        ∃ p, op = .enqueue .lpr p := by
    rcases hop with ⟨fd, hop⟩ | ⟨p, hop⟩
    · simp only [LTSconex.notRestored, logWrite, List.cons_append, List.nil_append, List.mem_cons,
        List.not_mem_nil, or_false] at hop
      rcases hop with rfl | rfl | rfl | rfl | rfl <;> simp
    · simp only [LTSconex.resume, logWrite, enqueueForSTS, List.cons_append, List.nil_append,
        List.mem_cons, List.not_mem_nil, or_false] at hop
      rcases hop with rfl | rfl | rfl | rfl | rfl | rfl | rfl | rfl <;> simp
  rcases hkinds with ⟨m, rfl⟩ | ⟨m, rfl⟩ | ⟨fd, rfl⟩ | ⟨p, rfl⟩ | rfl | rfl | ⟨p, rfl⟩
  · simp only [Operation.exec] at h
    split_ifs at h
    cases h
    exact account.add_of_same rfl rfl rfl
  · simp only [Operation.exec] at h
    split_ifs at h
    cases h
    exact account.add_of_same rfl rfl rfl
  · cases h
    exact account.add_of_same rfl rfl rfl
  · cases h
    exact account.add_of_same rfl rfl rfl
  · cases h
    have hsem : (s.post .stsInEmpty).sem .mmpSem = s.sem .mmpSem := by
      simp [Shared.post]
    exact account.add_of_same hsem rfl rfl
  · exact absurd rfl hpost
  · exact absurd rfl (hgive p)

end Accounts

namespace PP

def idle : Thread Operation Label := ⟨.epollWait, []⟩

/-- `LTSconex` has found `fd` readable in `st₀`, and whatever it reads from then on is the frame
in `net`. The states in which it took a step of its own since are listed, the last one first. -/
inductive Handling (cfg : Config) (fd : ℕ) (arrived : ℕ × ℕ) (net : List UInt8) (stale : Stale)
    (st₀ : PP) : PP → List PP → Account → Prop
  | begins {st : PP} : st₀.thread .ltsConex = idle →
      next cfg st₀ (.ltsConex, .readable fd) = some st →
      Handling cfg fd arrived net stale st₀ st [] (Account.empty.add st₀.shared st.shared)
  | other {st st' : PP} {seen : List PP} {account : Account} {a : Step} :
      Handling cfg fd arrived net stale st₀ st seen account → a.1 ≠ .ltsConex →
      next cfg st a = some st' → Handling cfg fd arrived net stale st₀ st' seen account
  | own {st st' : PP} {seen : List PP} {account : Account} {c : Choice} :
      Handling cfg fd arrived net stale st₀ st seen account → st.thread .ltsConex ≠ idle →
      c = .go ∨ c = .frame arrived net stale → next cfg st (.ltsConex, c) = some st' →
      Handling cfg fd arrived net stale st₀ st' (st :: seen) (account.add st.shared st'.shared)

/-- The handling is over, or has come to a point from which the program has no defined step. -/
def Ended (cfg : Config) (arrived : ℕ × ℕ) (net : List UInt8) (stale : Stale) (st : PP) : Prop :=
  (st.thread .ltsConex).ops = [] ∧ (st.thread .ltsConex = idle ∨
    ∀ c, c = .go ∨ c = .frame arrived net stale →
      LTSconex.control cfg st.shared (st.thread .ltsConex).pc c = none)

def RequestSettled (st : PP) (account : Account) : Prop :=
  st.thread .ltsConex = idle ∧ (account.Moved ∨ account.Unchanged)

/-- What is received is neither an error nor an `'R'` frame, or the `LPS` searched is empty. -/
def AstrayAt (arrived : ℕ × ℕ) (net : List UInt8) (stale : Stale) (s : Shared) : Label → Prop
  | .awaitRequest fd => s.connection fd ≠ none ∧
      ∀ r rest, stale.readStream arrived net = some (r, rest) →
        ∃ dataIn, r = .stream dataIn ∧ dataIn.type ≠ 82
  | .restoring _ => s.LPS = []
  | _ => False

def Astray (arrived : ℕ × ℕ) (net : List UInt8) (stale : Stale) (st : PP) : Prop :=
  (st.thread .ltsConex).ops = [] ∧ AstrayAt arrived net stale st.shared (st.thread .ltsConex).pc

inductive Stage : Thread Operation Label → Account → Prop
  | asked (fd : ℕ) : Stage ⟨.awaitRequest fd, []⟩ ⟨-1, [], [], true⟩
  | searching (fd : ℕ) {ops : List Operation} : (∀ op ∈ ops, op = .lock .lps) →
      Stage ⟨.restoring fd, ops⟩ ⟨-1, [], [], true⟩
  | declined (fd : ℕ) {ops : List Operation} : (∀ op ∈ ops, op ∈ LTSconex.notRestored fd) →
      Stage ⟨.epollWait, ops⟩ ⟨-(ops.count (.post .mmpSem) : ℤ), [], [], true⟩
  | restored {p : Ptr} {ops : List Operation} : (∀ op ∈ ops, op ∈ LTSconex.resume p) →
      ops.count (.enqueue .lpr p) = 1 → Stage ⟨.epollWait, ops⟩ ⟨-1, [p], [], false⟩
  | requeued {p : Ptr} {ops : List Operation} : (∀ op ∈ ops, op ∈ LTSconex.resume p) →
      ops.count (.enqueue .lpr p) = 0 → Stage ⟨.epollWait, ops⟩ ⟨-1, [p], [p], false⟩

theorem restoreSuspended_eq_none {image : Ptr → TProcessImage} {LPS : List Ptr} {clientfd : ℕ}
    (h : restoreSuspended image LPS clientfd = none) : LPS = [] := by
  unfold restoreSuspended at h
  split_ifs at h with hnil
  · exact hnil
  · split at h
    case h_1 => cases h
    case h_2 i hi =>
      obtain ⟨hlt, -⟩ := List.findIdx?_eq_some_iff_getElem.mp hi
      rw [List.getElem?_eq_getElem hlt] at h
      cases h

section Stages

variable {st st' : PP} {account : Account} {ops : List Operation} {op : Operation}

/-- Carrying out an operation stays within the stage. -/
theorem Stage.exec {pc : Label} {t : Tid} {s s' : Shared}
    (h : Stage ⟨pc, op :: ops⟩ account) (hexec : op.exec t s = some s') :
    Stage ⟨pc, ops⟩ (account.add s s') := by
  cases h with
  | searching fd hops =>
    obtain rfl := hops op List.mem_cons_self
    have hsame : Account.add s s' ⟨-1, [], [], true⟩ = ⟨-1, [], [], true⟩ := by
      simp only [Operation.exec] at hexec
      split_ifs at hexec
      cases hexec
      exact Account.add_of_same _ rfl rfl rfl
    rw [hsame]
    exact .searching fd fun op hop => hops op (List.mem_cons_of_mem _ hop)
  | declined fd hops =>
    have hrest : ∀ op ∈ ops, op ∈ LTSconex.notRestored fd :=
      fun op hop => hops op (List.mem_cons_of_mem _ hop)
    by_cases hpost : op = .post .mmpSem
    · subst hpost
      cases hexec
      rw [Account.add_post, List.count_cons_self]
      have hcount : -((ops.count (.post .mmpSem) + 1 : ℕ) : ℤ) + 1 =
          -(ops.count (.post .mmpSem) : ℤ) := by omega
      simp only [hcount]
      exact .declined _ hrest
    · have hgive (p : Ptr) : op ≠ .enqueue .lpr p := by
        rintro rfl
        have hmem := hops _ List.mem_cons_self
        simp [LTSconex.notRestored, logWrite] at hmem
      rw [Account.add_exec _ (.inl ⟨fd, hops op List.mem_cons_self⟩) hpost hgive hexec,
        List.count_cons_of_ne hpost]
      exact .declined _ hrest
  | @restored p _ hops hcount =>
    have hrest : ∀ op ∈ ops, op ∈ LTSconex.resume p :=
      fun op hop => hops op (List.mem_cons_of_mem _ hop)
    have hpost : op ≠ .post .mmpSem := by
      rintro rfl
      have hmem := hops _ List.mem_cons_self
      simp [LTSconex.resume, logWrite, enqueueForSTS] at hmem
    by_cases hgive : op = .enqueue .lpr p
    · subst hgive
      cases hexec
      rw [List.count_cons_self] at hcount
      have hgiven : Account.add s ((s.setQueue .lpr (s.queue .lpr ++ [p])).post .lprEmpty)
          ⟨-1, [p], [], false⟩ = ⟨-1, [p], [p], false⟩ := Account.add_give _ s p
      exact hgiven ▸ .requeued hrest (by omega)
    · have hgives (q : Ptr) : op ≠ .enqueue .lpr q := by
        rintro rfl
        have hmem := hops _ List.mem_cons_self
        simp [LTSconex.resume, logWrite, enqueueForSTS, Queue.mutex] at hmem
        exact hgive (hmem ▸ rfl)
      rw [Account.add_exec _ (.inr ⟨p, hops op List.mem_cons_self⟩) hpost hgives hexec]
      rw [List.count_cons_of_ne hgive] at hcount
      exact .restored hrest hcount
  | @requeued p _ hops hcount =>
    have hrest : ∀ op ∈ ops, op ∈ LTSconex.resume p :=
      fun op hop => hops op (List.mem_cons_of_mem _ hop)
    have hpost : op ≠ .post .mmpSem := by
      rintro rfl
      have hmem := hops _ List.mem_cons_self
      simp [LTSconex.resume, logWrite, enqueueForSTS] at hmem
    have hgive : op ≠ .enqueue .lpr p := by
      rintro rfl
      simp at hcount
    have hgives (q : Ptr) : op ≠ .enqueue .lpr q := by
      rintro rfl
      have hmem := hops _ List.mem_cons_self
      simp [LTSconex.resume, logWrite, enqueueForSTS, Queue.mutex] at hmem
      exact hgive (hmem ▸ rfl)
    rw [Account.add_exec _ (.inr ⟨p, hops op List.mem_cons_self⟩) hpost hgives hexec]
    rw [List.count_cons_of_ne hgive] at hcount
    exact .requeued hrest hcount

/-- A control step leads on to the next stage, or astray. -/
theorem Stage.control {pc : Label} {s s' : Shared} {th : Thread Operation Label} {c : Choice}
    (h : Stage ⟨pc, []⟩ account) (hidle : pc ≠ .epollWait)
    (hc : c = .go ∨ c = .frame arrived net stale)
    (hcontrol : LTSconex.control cfg s pc c = some (s', th)) :
    (Stage th (account.add s s') ∧ ¬ AstrayAt arrived net stale s pc) ∨
      (th = idle ∧ account.add s s' = ⟨-1, [], [], true⟩ ∧ AstrayAt arrived net stale s pc) := by
  cases h with
  | declined | restored | requeued => exact absurd rfl hidle
  | asked fd =>
    rcases hc with rfl | rfl
    · cases hcontrol
    have hsame : Account.add s s ⟨-1, [], [], true⟩ = ⟨-1, [], [], true⟩ :=
      Account.add_of_same _ rfl rfl rfl
    have hdecline : Stage ⟨.epollWait, [.post .mmpSem, .close fd]⟩ ⟨-1, [], [], true⟩ :=
      .declined fd (by simp [LTSconex.notRestored])
    simp only [LTSconex.control] at hcontrol
    split_ifs at hcontrol with hclosed
    · cases hcontrol
      rw [hsame]
      exact .inl ⟨hdecline, fun hastray => hastray.1 (by simpa using hclosed)⟩
    · have hopen : s.connection fd ≠ none := by simpa using hclosed
      obtain ⟨⟨r, rest⟩, hread, hcontrol⟩ := Option.map_eq_some_iff.mp hcontrol
      rcases r with _ | dataIn
      · cases hcontrol
        rw [hsame]
        refine .inl ⟨hdecline, fun hastray => ?_⟩
        obtain ⟨dataIn, hr, -⟩ := hastray.2 _ _ hread
        cases hr
      · dsimp only at hcontrol
        split_ifs at hcontrol with htype
        · cases hcontrol
          rw [hsame]
          refine .inl ⟨.searching fd (by simp), fun hastray => ?_⟩
          obtain ⟨dataIn', hr, htype'⟩ := hastray.2 _ _ hread
          cases hr
          exact htype' htype
        · cases hcontrol
          refine .inr ⟨rfl, hsame, hopen, fun r' rest' hread' => ?_⟩
          rw [hread] at hread'
          cases hread'
          exact ⟨dataIn, rfl, htype⟩
  | searching fd =>
    rcases hc with rfl | rfl
    · obtain ⟨r, hr, hcontrol⟩ := Option.map_eq_some_iff.mp hcontrol
      have hsome : s.LPS ≠ [] := by
        intro hnil
        simp [restoreSuspended, hnil] at hr
      refine .inl ⟨?_, hsome⟩
      rcases r with _ | ⟨p, LPS⟩
      · cases hcontrol
        rw [Account.add_of_same _ rfl rfl rfl]
        exact .declined fd (fun _ hop => hop)
      · cases hcontrol
        obtain ⟨hperm, -⟩ := restoreSuspended_eq_some hr
        have htake : Account.add s
            { s with LPS := LPS, resumed := s.resumed ++ [(p, s.connection fd)] }
            ⟨-1, [], [], true⟩ = ⟨-1, [p], [], false⟩ := Account.add_take _ hperm rfl rfl
        rw [htake]
        exact .restored (fun _ hop => hop) (by simp [LTSconex.resume, logWrite, enqueueForSTS])
    · cases hcontrol

end Stages

section Handlings

variable {st₀ st st' : PP} {seen : List PP} {account : Account}

/-- A step of `LTSconex`, the choice included. -/
theorem ltsConex_next {c : Choice} (h : next cfg st (.ltsConex, c) = some st') :
    (∃ op ops, st.thread .ltsConex = ⟨(st.thread .ltsConex).pc, op :: ops⟩ ∧
      op.exec .ltsConex st.shared = some st'.shared ∧
      st'.thread .ltsConex = ⟨(st.thread .ltsConex).pc, ops⟩) ∨
    (st.thread .ltsConex = ⟨(st.thread .ltsConex).pc, []⟩ ∧
      LTSconex.control cfg st.shared (st.thread .ltsConex).pc c =
        some (st'.shared, st'.thread .ltsConex)) := by
  rcases Machine.step_cases (next_eq_some h).2 with
    ⟨op, ops, s, hops, hexec, rfl⟩ | ⟨s, th, hops, hcontrol, rfl⟩
  · refine .inl ⟨op, ops, by rw [← hops], hexec, ?_⟩
    dsimp only
    rw [Function.update_self]
  · refine .inr ⟨by rw [← hops], hcontrol.trans ?_⟩
    dsimp only
    rw [Function.update_self]

theorem stage_begins (h : st₀.thread .ltsConex = idle)
    (hnext : next cfg st₀ (.ltsConex, .readable fd) = some st) :
    Stage (st.thread .ltsConex) (Account.empty.add st₀.shared st.shared) := by
  rcases ltsConex_next hnext with ⟨op, ops, hthread, -, -⟩ | ⟨-, hcontrol⟩
  · rw [h] at hthread
    cases hthread
  · generalize st.thread .ltsConex = th at hcontrol
    generalize st.shared = s at hcontrol
    rw [h] at hcontrol
    simp only [idle, LTSconex.control] at hcontrol
    split_ifs at hcontrol with hsem
    · cases hcontrol
      rw [Account.add_tryWait _ hsem]
      exact .asked fd
    · cases hcontrol
      rw [Account.add_of_same _ rfl rfl rfl]
      exact .declined fd (List.forall_mem_nil _)

/-- An own step of a handling that has not been astray. -/
theorem stage_own {c : Choice} (h : Stage (st.thread .ltsConex) account)
    (hbusy : st.thread .ltsConex ≠ idle) (hc : c = .go ∨ c = .frame arrived net stale)
    (hnext : next cfg st (.ltsConex, c) = some st') :
    (Stage (st'.thread .ltsConex) (account.add st.shared st'.shared) ∧
      ¬ Astray arrived net stale st) ∨
    (st'.thread .ltsConex = idle ∧ account.add st.shared st'.shared = ⟨-1, [], [], true⟩ ∧
      Astray arrived net stale st) := by
  rcases ltsConex_next hnext with ⟨op, ops, hthread, hexec, hthread'⟩ | ⟨hthread, hcontrol⟩
  · rw [hthread] at h
    rw [hthread']
    refine .inl ⟨h.exec hexec, fun hastray => ?_⟩
    rw [Astray, hthread] at hastray
    cases hastray.1
  · rw [hthread] at h
    have hpc : (st.thread .ltsConex).pc ≠ .epollWait := by
      intro hpc
      rw [hpc] at hthread
      exact hbusy hthread
    have hops : (st.thread .ltsConex).ops = [] := by rw [hthread]
    rcases h.control hpc hc hcontrol with ⟨hstage, hnot⟩ | ⟨hidle, haccount, hastray⟩
    · exact .inl ⟨hstage, fun hastray => hnot hastray.2⟩
    · exact .inr ⟨hidle, haccount, hops, hastray⟩

/-- A handling is at one of its stages and has never been astray, or it has been and is over with
the slot lost. -/
theorem Handling.stage (h : Handling cfg fd arrived net stale st₀ st seen account) :
    (Stage (st.thread .ltsConex) account ∧ ∀ st' ∈ seen, ¬ Astray arrived net stale st') ∨
      (st.thread .ltsConex = idle ∧ account = ⟨-1, [], [], true⟩ ∧
        ∃ st' ∈ seen, Astray arrived net stale st') := by
  induction h with
  | begins hidle hnext => exact .inl ⟨stage_begins hidle hnext, List.forall_mem_nil _⟩
  | other _ ha hnext ih =>
    rw [Machine.thread_of_ne (next_eq_some hnext).2 (Ne.symm ha)]
    exact ih
  | own _ hbusy hc hnext ih =>
    rcases ih with ⟨hstage, hnever⟩ | ⟨hidle, -, -⟩
    · rcases stage_own hstage hbusy hc hnext with ⟨hstage', hnow⟩ | ⟨hidle, haccount, hastray⟩
      · exact .inl ⟨hstage', List.forall_mem_cons.mpr ⟨hnow, hnever⟩⟩
      · exact .inr ⟨hidle, haccount, _, List.mem_cons_self, hastray⟩
    · exact absurd hidle hbusy

/-- At the end of a handling that has never been astray before. -/
theorem settled_of_stage (h : Stage (st.thread .ltsConex) account)
    (hended : Ended cfg arrived net stale st) :
    RequestSettled st account ↔ ¬ Astray arrived net stale st := by
  obtain ⟨hops, hended⟩ := hended
  rw [RequestSettled, Astray, and_iff_right hops]
  generalize st.thread .ltsConex = th at h hops hended
  generalize st.shared = s at hended
  cases h with
  | asked fd =>
    have hstuck := hended.resolve_left (by simp [idle]) (.frame arrived net stale) (.inr rfl)
    have hastray : AstrayAt arrived net stale s (.awaitRequest fd) := by
      simp only [LTSconex.control] at hstuck
      split_ifs at hstuck with hclosed
      refine ⟨by simpa using hclosed, fun r rest hread => ?_⟩
      rw [hread] at hstuck
      cases hstuck
    exact iff_of_false (by simp [idle]) (not_not.mpr hastray)
  | searching fd =>
    have hstuck := hended.resolve_left (by simp [idle]) .go (.inl rfl)
    have hastray : AstrayAt arrived net stale s (.restoring fd) :=
      restoreSuspended_eq_none (Option.map_eq_none_iff.mp hstuck)
    exact iff_of_false (by simp [idle]) (not_not.mpr hastray)
  | declined =>
    subst hops
    exact iff_of_true ⟨rfl, .inr ⟨rfl, rfl⟩⟩ id
  | restored _ hcount =>
    subst hops
    cases hcount
  | @requeued p _ _ _ =>
    subst hops
    exact iff_of_true ⟨rfl, .inl ⟨p, rfl, rfl⟩⟩ id

/-- A request that resumes no process leaves `MMP_sem`, `LPS` and `LPR` as they were exactly when
its handling never goes astray, where it is about to end included. -/
theorem request_settled_iff (cfg : Config) (fd : ℕ) (arrived : ℕ × ℕ) (net : List UInt8)
    (stale : Stale) (st₀ st : PP) (seen : List PP) (account : Account)
    (h : Handling cfg fd arrived net stale st₀ st seen account)
    (hended : Ended cfg arrived net stale st) :
    RequestSettled st account ↔ ∀ st' ∈ st :: seen, ¬ Astray arrived net stale st' := by
  rcases h.stage with ⟨hstage, hnever⟩ | ⟨hidle, rfl, st', hst', hastray⟩
  · rw [List.forall_mem_cons, and_iff_left hnever]
    exact settled_of_stage hstage hended
  · constructor
    · rintro ⟨-, hmoved | hunchanged⟩
      · obtain ⟨p, htaken, -⟩ := hmoved
        cases htaken
      · cases hunchanged.1
    · exact fun hnever => absurd hastray (hnever st' (List.mem_cons_of_mem _ hst'))

end Handlings

section Runs

def isIdle (th : Thread Operation Label) : Bool :=
  match th with
  | ⟨.epollWait, []⟩ => true
  | _ => false

theorem isIdle_iff (th : Thread Operation Label) : isIdle th = true ↔ th = idle := by
  constructor
  · intro h
    unfold isIdle at h
    split at h
    case h_1 => rfl
    case h_2 => cases h
  · rintro rfl
    rfl

theorem Handling.goes {st₀ st st' : PP} {seen : List PP} {account : Account} (n : ℕ)
    (h : Handling cfg fd arrived net stale st₀ st seen account)
    (hgoes : follow (next cfg) (fun st _ => !isIdle (st.thread .ltsConex)) st
      (goes .ltsConex n) = some st') :
    ∃ seen' account', Handling cfg fd arrived net stale st₀ st' seen' account' := by
  induction n generalizing st seen account with
  | zero =>
    cases hgoes
    exact ⟨seen, account, h⟩
  | succ n ih =>
    simp only [PP.goes, List.replicate_succ, follow] at hgoes
    split_ifs at hgoes with hbusy
    obtain ⟨st₁, hnext, hgoes⟩ := Option.bind_eq_some_iff.mp hgoes
    have hne : st.thread .ltsConex ≠ idle := by
      intro hidle
      simp [(isIdle_iff _).mpr hidle] at hbusy
    exact ih (h.own hne (.inl rfl) hnext) hgoes

/-- The client of a submitted script has closed its end: nothing arrives, and the slot is given
back. -/
theorem request_settled_error : ∃ (st₀ st : PP) (seen : List PP) (account : Account),
    st.shared.sem .mmpSem = st₀.shared.sem .mmpSem ∧
      (RequestSettled st account ↔ ∀ st' ∈ st :: seen, ¬ Astray (0, 0) [] .zeros st') := by
  have hrun : ((follow (next smallConfig) (fun _ _ => true) (start smallConfig .fifo fun _ => 0)
      (PP.goes .ltsConex 3 ++ submits idleScript 0)).any fun st₀ =>
        (next smallConfig st₀ (.ltsConex, .readable 4)).any fun st₁ =>
          (next smallConfig st₁ (.ltsConex, .frame (0, 0) [] .zeros)).any fun st₂ =>
            (follow (next smallConfig) (fun st _ => !isIdle (st.thread .ltsConex)) st₂
              (PP.goes .ltsConex 2)).any fun st =>
                isIdle (st₀.thread .ltsConex) && !isIdle (st₁.thread .ltsConex) &&
                  isIdle (st.thread .ltsConex) &&
                  st.shared.sem .mmpSem == st₀.shared.sem .mmpSem) = true := by
    decide +kernel
  obtain ⟨st₀, hst₀, hrun⟩ := (Option.any_eq_true _ _).mp hrun
  obtain ⟨st₁, hst₁, hrun⟩ := (Option.any_eq_true _ _).mp hrun
  obtain ⟨st₂, hst₂, hrun⟩ := (Option.any_eq_true _ _).mp hrun
  obtain ⟨st, hst, hrun⟩ := (Option.any_eq_true _ _).mp hrun
  simp only [Bool.and_eq_true, beq_iff_eq, isIdle_iff, Bool.not_eq_true'] at hrun
  obtain ⟨⟨⟨hidle₀, hbusy⟩, hidle⟩, hsem⟩ := hrun
  have hbegins : Handling smallConfig 4 (0, 0) [] .zeros st₀ st₁ [] _ := .begins hidle₀ hst₁
  have hread := hbegins.own (fun hidle => by simp [(isIdle_iff _).mpr hidle] at hbusy)
    (.inr rfl) hst₂
  obtain ⟨seen, account, hhandling⟩ := hread.goes 2 hst
  exact ⟨st₀, st, seen, account, hsem, request_settled_iff smallConfig 4 (0, 0) [] .zeros st₀ st
    seen account hhandling ⟨by rw [hidle]; rfl, .inl hidle⟩⟩

/-- A frame of type `'X'`. -/
theorem other_frame_keeps_slot : ¬ ∀ (cfg : Config) (ALG : Algorithm) (priorities : QueueName → ℤ)
    (fd : ℕ) (arrived : ℕ × ℕ) (net : List UInt8) (stale : Stale) (st₀ st : PP) (seen : List PP)
    (account : Account), RunsTo (next cfg) (fun _ _ => True) (start cfg ALG priorities) st₀ →
      st₀.shared.connection fd ≠ none → Handling cfg fd arrived net stale st₀ st seen account →
      Ended cfg arrived net stale st → RequestSettled st account := by
  intro h
  have hrun : ((follow (next smallConfig) (fun _ _ => true) (start smallConfig .fifo fun _ => 0)
      (PP.goes .ltsConex 3 ++ submits idleScript 0)).any fun st₀ =>
        (next smallConfig st₀ (.ltsConex, .readable 4)).any fun st₁ =>
          (next smallConfig st₁ (.ltsConex, .frame (3, 4) (frame 88 [0]) .zeros)).any fun st₂ =>
            (st₀.shared.connection 4).isSome && isIdle (st₀.thread .ltsConex) &&
              !isIdle (st₁.thread .ltsConex) && isIdle (st₂.thread .ltsConex) &&
              st₀.shared.LPS == [] && st₁.shared.LPS == [] &&
              st₀.shared.sem .mmpSem == 1 && st₂.shared.sem .mmpSem == 0) = true := by
    decide +kernel
  obtain ⟨st₀, hst₀, hrun⟩ := (Option.any_eq_true _ _).mp hrun
  obtain ⟨st₁, hst₁, hrun⟩ := (Option.any_eq_true _ _).mp hrun
  obtain ⟨st₂, hst₂, hrun⟩ := (Option.any_eq_true _ _).mp hrun
  simp only [Bool.and_eq_true, beq_iff_eq, isIdle_iff, Bool.not_eq_true'] at hrun
  obtain ⟨⟨⟨⟨⟨⟨⟨hopen, hidle₀⟩, hbusy⟩, hidle₂⟩, hLPS₀⟩, hLPS₁⟩, hsem₀⟩, hsem₂⟩ := hrun
  have hbegins : Handling smallConfig 4 (3, 4) (frame 88 [0]) .zeros st₀ st₁ [] _ :=
    .begins hidle₀ hst₁
  have hhandling := hbegins.own (fun hidle => by simp [(isIdle_iff _).mpr hidle] at hbusy)
    (.inr rfl) hst₂
  have hsettled := h smallConfig .fifo (fun _ => 0) 4 _ _ _ st₀ st₂ _ _
    (RunsTo.of_follow (fun _ _ _ => trivial) _ hst₀) (by intro hnone; simp [hnone] at hopen)
    hhandling ⟨by rw [hidle₂]; rfl, .inl hidle₂⟩
  rcases hsettled.2 with ⟨p, htaken, -⟩ | ⟨htokens, -⟩
  · simp [Account.add, Account.empty, hLPS₀, hLPS₁] at htaken
  · simp [Account.add, Account.empty, hsem₀, hsem₂] at htokens
    omega

end Runs

end PP
end Sisop

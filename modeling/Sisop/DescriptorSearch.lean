import Sisop.Resumption

/-!
# The searches by descriptor

The loops of `restoreSuspended` and `list_fd_msg_get` as they run: the variable they leave behind
is tested once more, whether the loop was left by its `break`, ran to its end or never began. On a
list with elements the search is exact. On an empty one the variable has never been set; the
caller of `list_fd_msg_get` passes no such list, the caller of `restoreSuspended` can.
-/

namespace Sisop

section Searches

variable {α : Type} (fdOf : α → ℕ) (clientfd : ℕ)

def listGet (self : List α) (index : ℕ) : Option α := self[index]?

def listRemove (self : List α) (index : ℕ) : Option (α × List α) :=
  self[index]?.map fun data => (data, self.eraseIdx index)

/-- The loop from `i` on, `rounds` more times. It leaves the index and the variable, which is
`none` until it is set. -/
def searchLoop (list : List α) : (rounds i : ℕ) → Option α → ℕ × Option α
  | 0, i, element => (i, element)
  | rounds + 1, i, _ =>
    let element := listGet list i
    if element.any (fdOf · == clientfd) then (i, element)
    else searchLoop list rounds (i + 1) element

/-- The test behind the loop reads the variable: no result when it has not been set. The result is
what is returned, if not `NULL`, and the list afterwards. -/
def searchAndRemove (list : List α) : Option (Option α × List α) :=
  let (i, element) := searchLoop fdOf clientfd list list.length 0 none
  element.bind fun element =>
    if fdOf element = clientfd then (listRemove list i).map fun r => (some r.1, r.2)
    else some (none, list)

/-- The first element with the descriptor is returned and taken out, the others keep their order;
without one nothing is returned and the list stays. -/
inductive ExactSearch (list : List α) : Option α × List α → Prop
  | found {before after : List α} {element : α} : list = before ++ element :: after →
      (∀ other ∈ before, fdOf other ≠ clientfd) → fdOf element = clientfd →
      ExactSearch list (some element, before ++ after)
  | absent : (∀ other ∈ list, fdOf other ≠ clientfd) → ExactSearch list (none, list)

def SearchExact (list : List α) (result : Option (Option α × List α)) : Prop :=
  ∃ r, result = some r ∧ ExactSearch fdOf clientfd list r

variable {fdOf clientfd} {list : List α}

@[simp] theorem listGet_append (before after : List α) (element : α) :
    listGet (before ++ element :: after) before.length = some element := by
  simp [listGet]

@[simp] theorem listRemove_append (before after : List α) (element : α) :
    listRemove (before ++ element :: after) before.length = some (element, before ++ after) := by
  simp [listRemove, List.eraseIdx_append_of_length_le]

/-- Left by its `break`, the loop stands at the first element with the descriptor. -/
theorem searchLoop_found (before after : List α) {rest : List α} {element : α} (found : Option α)
    (hrest : ∀ other ∈ rest, fdOf other ≠ clientfd) (helement : fdOf element = clientfd) :
    searchLoop fdOf clientfd (before ++ (rest ++ element :: after))
        (rest ++ element :: after).length before.length found =
      ((before ++ rest).length, some element) := by
  induction rest generalizing before found with
  | nil =>
    rw [List.append_nil, List.nil_append, List.length_cons, searchLoop, listGet_append]
    simp [helement]
  | cons other rest ih =>
    obtain ⟨hother, hrest⟩ := List.forall_mem_cons.mp hrest
    rw [List.cons_append, List.length_cons, searchLoop, listGet_append]
    have hnext := ih (before ++ [other]) (some other) hrest
    rw [List.append_assoc, List.append_assoc, List.length_append] at hnext
    simpa [hother] using hnext

/-- Run to its end, the loop leaves the last element in the variable. -/
theorem searchLoop_absent (before : List α) {rest : List α} (found : Option α)
    (hrest : ∀ other ∈ rest, fdOf other ≠ clientfd) :
    searchLoop fdOf clientfd (before ++ rest) rest.length before.length found =
      ((before ++ rest).length, rest.getLast?.or found) := by
  induction rest generalizing before found with
  | nil => simp [searchLoop]
  | cons other rest ih =>
    obtain ⟨hother, hrest⟩ := List.forall_mem_cons.mp hrest
    rw [List.length_cons, searchLoop, listGet_append]
    have hnext := ih (before ++ [other]) (some other) hrest
    rw [List.append_assoc, List.length_append] at hnext
    have hlast : (other :: rest).getLast?.or found = rest.getLast?.or (some other) := by
      cases rest with
      | nil => rfl
      | cons next rest => simp [List.getLast?_cons]
    rw [hlast]
    simpa [hother] using hnext

theorem searchAndRemove_found {before : List α} {element : α} (after : List α)
    (hbefore : ∀ other ∈ before, fdOf other ≠ clientfd) (helement : fdOf element = clientfd) :
    searchAndRemove fdOf clientfd (before ++ element :: after) =
      some (some element, before ++ after) := by
  have hloop := searchLoop_found [] after none hbefore helement
  rw [List.nil_append, List.nil_append, List.length_nil] at hloop
  rw [searchAndRemove, hloop]
  simp [helement]

theorem searchAndRemove_absent (hne : list ≠ [])
    (habsent : ∀ other ∈ list, fdOf other ≠ clientfd) :
    searchAndRemove fdOf clientfd list = some (none, list) := by
  have hloop := searchLoop_absent [] none habsent
  rw [List.nil_append, List.length_nil, List.getLast?_eq_some_getLast hne] at hloop
  rw [searchAndRemove, hloop]
  simp [habsent _ (List.getLast_mem hne)]

theorem searchAndRemove_nil : searchAndRemove fdOf clientfd [] = none := rfl

/-- The search is exact on every list but the empty one. -/
theorem searchAndRemove_exact_iff :
    SearchExact fdOf clientfd list (searchAndRemove fdOf clientfd list) ↔ list ≠ [] := by
  constructor
  · rintro ⟨r, hr, -⟩ rfl
    rw [searchAndRemove_nil] at hr
    cases hr
  · intro hne
    rcases hfind : list.find? (fdOf · == clientfd) with _ | element
    · have habsent : ∀ other ∈ list, fdOf other ≠ clientfd := by
        simpa using List.find?_eq_none.mp hfind
      exact ⟨_, searchAndRemove_absent hne habsent, .absent habsent⟩
    · obtain ⟨helement, before, after, rfl, hbefore⟩ := List.find?_eq_some_iff_append.mp hfind
      have hbefore : ∀ other ∈ before, fdOf other ≠ clientfd := by simpa using hbefore
      have helement : fdOf element = clientfd := by simpa using helement
      exact ⟨_, searchAndRemove_found after hbefore helement, .found rfl hbefore helement⟩

end Searches

def restoreSuspendedLoop (image : Ptr → TProcessImage) (LPS : List Ptr) (clientfd : ℕ) :
    Option (Option Ptr × List Ptr) :=
  searchAndRemove (fun p => (image p).clientfd) clientfd LPS

def listFdMsgGetLoop (lista : List (TMsg × Ptr)) (clientfd : ℕ) :
    Option (Option (TMsg × Ptr) × List (TMsg × Ptr)) :=
  searchAndRemove (·.1.fd) clientfd lista

section Connection

variable {α : Type} {fdOf : α → ℕ} {clientfd : ℕ} {list : List α}

/-- The search as the threads take it, in one step. -/
def searchAtOnce (fdOf : α → ℕ) (clientfd : ℕ) (list : List α) : Option (Option (α × List α)) :=
  if list = [] then none
  else match list.findIdx? (fdOf · == clientfd) with
    | none => some none
    | some i => list[i]?.map fun element => some (element, list.eraseIdx i)

theorem searchAndRemove_eq_atOnce (fdOf : α → ℕ) (clientfd : ℕ) (list : List α) :
    searchAndRemove fdOf clientfd list = (searchAtOnce fdOf clientfd list).map fun r =>
      (r.map (·.1), (r.map (·.2)).getD list) := by
  by_cases hne : list = []
  · rw [hne]
    rfl
  · rw [searchAtOnce, if_neg hne]
    rcases hindex : list.findIdx? (fdOf · == clientfd) with _ | i
    · have habsent : ∀ other ∈ list, fdOf other ≠ clientfd := by
        simpa using List.findIdx?_eq_none_iff.mp hindex
      exact searchAndRemove_absent hne habsent
    · obtain ⟨hlt, helement, hbefore⟩ := List.findIdx?_eq_some_iff_getElem.mp hindex
      have hsplit : list = list.take i ++ list[i] :: list.drop (i + 1) := by
        rw [List.getElem_cons_drop, List.take_append_drop]
      have hother : ∀ other ∈ list.take i, fdOf other ≠ clientfd := by
        intro other hmem
        obtain ⟨j, hj, rfl⟩ := List.mem_take_iff_getElem.mp hmem
        simpa using hbefore j (by omega)
      have helement : fdOf list[i] = clientfd := by simpa using helement
      have hfound := searchAndRemove_found (list.drop (i + 1)) hother helement
      rw [← hsplit] at hfound
      dsimp only
      rw [hfound, List.getElem?_eq_getElem hlt, ← List.eraseIdx_eq_take_drop_succ]
      rfl

/-- The loop of `restoreSuspended` computes what `LTSconex` does in one step. -/
theorem restoreSuspendedLoop_eq (image : Ptr → TProcessImage) (LPS : List Ptr) (clientfd : ℕ) :
    restoreSuspendedLoop image LPS clientfd = (restoreSuspended image LPS clientfd).map fun r =>
      (r.map (·.1), (r.map (·.2)).getD LPS) :=
  searchAndRemove_eq_atOnce ..

theorem listFdMsgGetLoop_eq (lista : List (TMsg × Ptr)) (clientfd : ℕ) :
    listFdMsgGetLoop lista clientfd = (list_fd_msg_get lista clientfd).map fun r =>
      (r.map (·.1), (r.map (·.2)).getD lista) :=
  searchAndRemove_eq_atOnce ..

end Connection

namespace PP

variable {cfg : Config} {ALG : Algorithm} {priorities : QueueName → ℤ} {st : PP}

/-- `list_fd_msg_get` is called with messages in the list. -/
theorem searchable_run
    (h : RunsTo (next cfg) (fun _ _ => True) (start cfg ALG priorities) st) : Searchable st := by
  induction h with
  | start => simp [Searchable, start, initialThread]
  | step a hrun _ hnext ih => exact searchable_next hnext (home_run hrun a.1) ih

/-- `restoreSuspended` is exact on a list if and only if the list has an element, whatever the
images and the descriptor are; `list_fd_msg_get` is exact on every list its caller passes, in
every run. -/
theorem searches_exact_iff (cfg : Config) (ALG : Algorithm) (priorities : QueueName → ℤ)
    (image : Ptr → TProcessImage) (LPS : List Ptr) (clientfd : ℕ) :
    (SearchExact (fun p => (image p).clientfd) clientfd LPS
      (restoreSuspendedLoop image LPS clientfd) ↔ LPS ≠ []) ∧
    ∀ st fd, RunsTo (next cfg) (fun _ _ => True) (start cfg ALG priorities) st →
      (st.thread .ltsConex).pc = .getting fd →
      SearchExact (fun m : TMsg × Ptr => m.1.fd) fd st.shared.sendingList
        (listFdMsgGetLoop st.shared.sendingList fd) := by
  refine ⟨searchAndRemove_exact_iff, fun st fd hrun hpc => ?_⟩
  have hne : st.shared.sendingList ≠ [] := searchable_run hrun fd hpc
  exact searchAndRemove_exact_iff.mpr hne

def sought : Label → Option ℕ
  | .getting fd => some fd
  | _ => none

theorem eq_getting_of_sought {pc : Label} {fd : ℕ} (h : sought pc = some fd) :
    pc = .getting fd := by
  cases pc with
  | getting fd' =>
    cases h
    rfl
  | _ => cases h

/-- The report `'T'` of a process waits when its client can be written to. -/
theorem searches_exact_report : ∃ st : PP, st.shared.sendingList = [(⟨4, 84, []⟩, 0)] ∧
    SearchExact (fun m : TMsg × Ptr => m.1.fd) 4 st.shared.sendingList
      (listFdMsgGetLoop st.shared.sendingList 4) := by
  have hrun : ((follow (next smallConfig) (fun _ _ => true) (start smallConfig .fifo fun _ => 0)
      (goes .ltsConex 3 ++ submits idleScript 0 ++ goes .sts 19 ++ goes .procer 21 ++
        [(Tid.ltsConex, Choice.writable 4)] ++ goes .ltsConex 4)).any fun st =>
          sought (st.thread .ltsConex).pc == some 4 &&
            st.shared.sendingList == [(⟨4, 84, []⟩, 0)]) = true := by
    decide +kernel
  obtain ⟨st, hst, hlist⟩ := (Option.any_eq_true _ _).mp hrun
  simp only [Bool.and_eq_true, beq_iff_eq] at hlist
  have hexact := (searches_exact_iff smallConfig .fifo (fun _ => 0) st.shared.image [] 4).2 st 4
    (RunsTo.of_follow (fun _ _ _ => trivial) _ hst) (eq_getting_of_sought hlist.1)
  exact ⟨st, hlist.2, hexact⟩

/-- The client of a script that has not been suspended sends an `'R'`: `restoreSuspended` gets an
empty `LPS`. -/
theorem searches_empty_list : ∃ st : PP,
    RunsTo (next smallConfig) (fun _ _ => True) (start smallConfig .fifo fun _ => 0) st ∧
      (st.thread .ltsConex).pc = .restoring 4 ∧
      ¬ SearchExact (fun p => (st.shared.image p).clientfd) 4 st.shared.LPS
        (restoreSuspendedLoop st.shared.image st.shared.LPS 4) := by
  have hrun : ((follow (next smallConfig) (fun _ _ => true) (start smallConfig .fifo fun _ => 0)
      (goes .ltsConex 3 ++ submits idleScript 0 ++
        [(Tid.ltsConex, Choice.readable 4), (.ltsConex, .frame (3, 4) (frame 82 [0]) .zeros)] ++
        goes .ltsConex 1)).any fun st =>
          served (st.thread .ltsConex).pc == some 4 && st.shared.LPS == []) = true := by
    decide +kernel
  obtain ⟨st, hst, hLPS⟩ := (Option.any_eq_true _ _).mp hrun
  simp only [Bool.and_eq_true, beq_iff_eq] at hLPS
  refine ⟨st, RunsTo.of_follow (fun _ _ _ => trivial) _ hst, eq_restoring_of_served hLPS.1, ?_⟩
  intro hexact
  exact searchAndRemove_exact_iff.mp hexact hLPS.2

end PP
end Sisop

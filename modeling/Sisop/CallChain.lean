import Sisop.PreemptionTransparency
import Sisop.RunningImage

/-!
# The saved list of calls

Outermost call first: the first was made on the line of the image, each later one on the line on
which the one before it stands. The chain spread over the running functions and the list of the
image has this form after every step, as long as no function calls while the list is not empty.
-/

namespace Sisop

variable {code : List CString} {quantum : ℤ}

def CallChain (PC : ℕ) : List TStack → Prop
  | [] => True
  | element :: rest => element.linecall = PC ∧ CallChain element.PC rest

instance CallChain.decidable : ∀ (PC : ℕ) (stack : List TStack), Decidable (CallChain PC stack)
  | _, [] => isTrue trivial
  | PC, element :: rest =>
    have := CallChain.decidable element.PC rest
    inferInstanceAs (Decidable (element.linecall = PC ∧ CallChain element.PC rest))

def innermostPC (PC : ℕ) (stack : List TStack) : ℕ := (stack.getLast?.map (·.PC)).getD PC

theorem innermostPC_concat (PC : ℕ) (stack : List TStack) (element : TStack) :
    innermostPC PC (stack ++ [element]) = element.PC := by
  rw [innermostPC, List.getLast?_concat]
  rfl

theorem innermostPC_cons (PC : ℕ) (element : TStack) (rest : List TStack) :
    innermostPC PC (element :: rest) = innermostPC element.PC rest := by
  rw [innermostPC, innermostPC, List.getLast?_cons]
  cases rest.getLast? <;> rfl

theorem callChain_concat {PC : ℕ} {stack : List TStack} {element : TStack} :
    CallChain PC (stack ++ [element]) ↔
      CallChain PC stack ∧ element.linecall = innermostPC PC stack := by
  induction stack generalizing PC with
  | nil => exact and_comm
  | cons first rest ih =>
    rw [List.cons_append, CallChain, ih, CallChain, innermostPC_cons, and_assoc]

namespace Exec

def Linked (e : Exec) : Prop := CallChain e.processImage.PC e.calls.reverse

theorem linked_of_calls_nil {e : Exec} (h : e.calls = []) : e.Linked := by
  rw [Linked, h]
  trivial

theorem Linked.of_calls_eq {e e' : Exec} (h : e.Linked) (hcalls : e'.calls = e.calls)
    (hPC : e'.processImage.PC = e.processImage.PC) : e'.Linked := by
  rw [Linked, hcalls, hPC]
  exact h

/-- The innermost call is over. -/
theorem Linked.tail {e e' : Exec} {element : TStack} (h : e.Linked)
    (hcalls : e.calls = element :: e'.calls)
    (hPC : e'.processImage.PC = e.processImage.PC) : e'.Linked := by
  rw [Linked, hcalls, List.reverse_cons] at h
  rw [Linked, hPC]
  exact (callChain_concat.mp h).1

/-- The innermost call goes on, in its own function. -/
theorem Linked.advance {e : Exec} {element : TStack} {rest : List TStack} (h : e.Linked)
    (helements : e.elements = element :: rest) : (e.advanceFunction element rest).Linked := by
  have hcalls : e.calls = element :: (e.stack.reverse ++ rest) := by
    rw [calls, helements]
  rw [Linked, hcalls, List.reverse_cons] at h
  have hadvanced : (e.advanceFunction element rest).calls =
      { element with PC := nextPC element.PC } :: (e.stack.reverse ++ rest) := rfl
  rw [Linked, hadvanced, List.reverse_cons]
  obtain ⟨hrest, hlinecall⟩ := callChain_concat.mp h
  exact callChain_concat.mpr ⟨hrest, hlinecall⟩

/-- A call from where the innermost one stands, with nothing on the list. -/
theorem Linked.call {e : Exec} {functionName : CString} {PC entry : ℕ} (h : e.Linked)
    (hstack : e.stack = []) (hPC : PC = innermostPC e.processImage.PC e.calls.reverse) :
    ({ e with elements := ⟨functionName, entry, PC⟩ :: e.elements } : Exec).Linked := by
  have hcalls : ({ e with elements := ⟨functionName, entry, PC⟩ :: e.elements } : Exec).calls =
      ⟨functionName, entry, PC⟩ :: e.calls := by
    rw [calls_of_stack_nil hstack, calls_of_stack_nil (by exact hstack)]
  rw [Linked, hcalls, List.reverse_cons]
  exact callChain_concat.mpr ⟨h, hPC⟩

theorem calls_eq_nil {e : Exec} (helements : e.elements = []) (hstack : e.stack = []) :
    e.calls = [] := by
  rw [calls_of_stack_nil hstack, helements]

/-- A line that is no call leaves the active calls alone. -/
theorem runLine_calls {e e' : Exec} {PC : ℕ} {outcome : LineOutcome} {ops : List Operation}
    {events : List Event} (h : e.runLine code PC outcome = some (e', ops, events)) :
    (e'.calls = e.calls ∧ ∀ functionName, outcome ≠ .call functionName) ∨
      ∃ functionName entry, outcome = .call functionName ∧
        e' = { e with elements := ⟨functionName, entry, PC⟩ :: e.elements } := by
  cases outcome with
  | effect f =>
    cases h
    exact .inl ⟨rfl, by simp⟩
  | asksPool =>
    cases h
    exact .inl ⟨rfl, by simp⟩
  | call functionName =>
    obtain ⟨entry, -, rfl, -, -⟩ := runLine_call h
    exact .inr ⟨functionName, entry, rfl, rfl⟩

theorem runLine_PC {e e' : Exec} {PC : ℕ} {outcome : LineOutcome} {ops : List Operation}
    {events : List Event} (h : e.runLine code PC outcome = some (e', ops, events))
    (heffect : ∀ f, outcome = .effect f → f.PC = e.processImage.PC) :
    e'.processImage.PC = e.processImage.PC := by
  obtain ⟨f, rfl, rfl⟩ | ⟨-, rfl⟩ | ⟨elements, rfl⟩ := runLine_eq h
  · exact heffect f rfl
  · rfl
  · rfl

section Matching

variable {e e' : Exec} {ops : List Operation} {events trace : List Event}

theorem Linked.of_moves {SUSPEND raise poolFree rr : Bool}
    (h : Moves code quantum 0 ⟨SUSPEND || raise, poolFree, rr⟩ e e' ops events)
    (hsound : ChainSound code quantum SUSPEND e)
    (hcall : ¬ Dispatch.callsOverStack code quantum ⟨e, SUSPEND, trace⟩
      (.advance raise poolFree rr)) (he : e.Linked) : e'.Linked := by
  cases h with
  | returns | counts => exact he.of_calls_eq rfl rfl
  | resumes _ helements =>
    exact he.of_calls_eq (calls_stackExecution helements) (stackExecution_PC e)
  | runsLine _ helements hstack _ _ _ _ _ hrun =>
    have hidle : e.advanceProcess.calls = [] := calls_eq_nil helements hstack
    rcases runLine_calls hrun with ⟨hcalls, -⟩ | ⟨functionName, entry, rfl, rfl⟩
    · exact linked_of_calls_nil (hcalls.trans hidle)
    · refine (linked_of_calls_nil hidle).call hstack ?_
      rw [hidle]
      rfl
  | @leaves element rest line _ helements hline =>
    rcases hfin : isFinFuncion line element.functionName with _ | _
    · exact he.of_calls_eq (calls_leaveFunction_unfinished helements) (leaveFunction_PC ..)
    · have hcalls := calls_leaveFunction_finished helements (hsound.finishes helements hline hfin)
      exact he.tail hcalls (leaveFunction_PC ..)
  | @runsFunctionLine element rest line next outcome e' ops events hpoint helements hline hfin
      hkeep hnext houtcome hrun =>
    have hadvanced := he.advance helements
    rcases runLine_calls hrun with ⟨hcalls, -⟩ | ⟨functionName, entry, rfl, rfl⟩
    · refine hadvanced.of_calls_eq hcalls (runLine_PC hrun ?_)
      rintro f rfl
      exact functionLine_PC houtcome
    · have hstack : e.stack = [] := stack_nil_of_call hcall hpoint helements hline hfin hkeep hnext
        (functionLine_call houtcome)
      refine hadvanced.call hstack ?_
      have hcalls : (e.advanceFunction element rest).calls =
          { element with PC := nextPC element.PC } :: rest := calls_of_stack_nil hstack
      rw [hcalls, List.reverse_cons, innermostPC_concat]
  | asksPool _ _ _ hf => exact he.of_calls_eq rfl (processPoolLine_PC hf)
  | asksPoolInFunction _ _ _ hf => exact he.of_calls_eq rfl (functionPoolLine_PC hf)

end Matching
end Exec

namespace Dispatch

/-- In every state of a run that makes no call over a waiting list the chain is sound. -/
structure Chained (code : List CString) (quantum : ℤ) (d : Dispatch) : Prop where
  sound : d.exec.ChainSound code quantum d.SUSPEND
  linked : d.exec.Linked

theorem linked_enter {image : TProcessImage} (h : CallChain image.PC image.stack) :
    (Exec.enter image).1.Linked := by
  have hcalls : (Exec.enter image).1.calls = image.stack.reverse :=
    Exec.calls_stackExecution (e := Exec.atEntry image) rfl
  have hPC : (Exec.enter image).1.processImage.PC = image.PC :=
    Exec.stackExecution_PC (Exec.atEntry image)
  rw [Exec.Linked, hcalls, hPC, List.reverse_reverse]
  exact h

theorem callChain_of_linked {e : Exec} (h : e.Linked) (helements : e.elements = []) :
    CallChain e.processImage.PC e.stack := by
  have hcalls : e.calls = e.stack.reverse := by rw [Exec.calls, helements]
  rw [Exec.Linked, hcalls, List.reverse_reverse] at h
  exact h

theorem chained_next {d d' : Dispatch} {a : Action} (h : d.next code quantum a = some d')
    (hcall : ¬ d.callsOverStack code quantum a) (hd : Chained code quantum d) :
    Chained code quantum d' := by
  cases a with
  | advance raise poolFree rr =>
    obtain ⟨⟨e', ops, events⟩, hstep, hd'⟩ := Option.map_eq_some_iff.mp h
    cases hd'
    have hmoves := Exec.moves_of_step hstep
    exact ⟨hd.sound.of_moves hmoves hcall, hd.linked.of_moves hmoves hd.sound hcall⟩
  | redispatch =>
    simp only [next] at h
    split_ifs at h with hreturned
    cases h
    have helements := hd.sound.returned hreturned.1
    refine ⟨chainSound_enter fun hstack => hd.sound.atCall (.inr hstack), ?_⟩
    exact linked_enter (callChain_of_linked hd.linked helements)

/-- Whenever a process leaves `PROCER` in a run that makes no call over a waiting list, its list
is the chain of its active calls, the innermost one last. -/
theorem saved_calls_chained (code : List CString) (quantum : ℤ) (clientfd pid : ℕ)
    (priority : Int32) (script : CString) (TANT : ℚ) (d : Dispatch)
    (h : RunsTo (next code quantum) (fun d a => ¬ d.callsOverStack code quantum a)
      (start (newImage clientfd pid priority script TANT)) d)
    (hreturned : d.exec.point = .returned) :
    CallChain d.exec.processImage.PC d.exec.processImage.stack := by
  have hd : Chained code quantum d := by
    refine h.invariant (P := Chained code quantum) ⟨chainSound_enter (absurd rfl), ?_⟩ ?_
    · exact linked_enter trivial
    · intro d a d' hd hcall hnext
      exact chained_next hnext hcall hd
  exact callChain_of_linked hd.linked (hd.sound.returned hreturned)

theorem saved_calls_chained_nested : ∃ d : Dispatch, d.exec.processImage.stack.length = 2 ∧
    CallChain d.exec.processImage.PC d.exec.processImage.stack := by
  have hrun : ((follow (next nestedCode 1) (fun d a => !d.callsOverStack nestedCode 1 a)
      (start (submitted nestedCode)) (dispatchesOf [6, 6])).any fun d =>
        d.exec.point == .returned && d.exec.processImage.stack.length == 2) = true := by
    decide +kernel
  obtain ⟨d, hd, hvalues⟩ := (Option.any_eq_true _ _).mp hrun
  simp only [Bool.and_eq_true, beq_iff_eq] at hvalues
  refine ⟨d, hvalues.2, saved_calls_chained nestedCode 1 5 11 0
    (List.intercalate [newline] nestedCode) 0 d ?_ hvalues.1⟩
  exact RunsTo.of_follow (fun d a h => by simpa using h) _ hd

/-- `h` is left when `g`, which called it, has gone back to the list behind `f`. -/
theorem crossed_calls_not_chained : ¬ ∀ (code : List CString) (quantum : ℤ)
    (image : TProcessImage) (d : Dispatch), codeSegmentCreator image.code = some code →
    image.stack = [] → RunsTo (next code quantum) (fun _ _ => True) (start image) d →
    d.exec.point = .returned → CallChain d.exec.processImage.PC d.exec.processImage.stack := by
  intro h
  have hrun : ((follow (next crossedCode 1) (fun _ _ => true) (start (submitted crossedCode))
      (dispatchesOf [8, 7])).any fun d => d.exec.point == .returned &&
        !decide (CallChain d.exec.processImage.PC d.exec.processImage.stack)) = true := by
    decide +kernel
  obtain ⟨d, hd, hvalues⟩ := (Option.any_eq_true _ _).mp hrun
  simp only [Bool.and_eq_true, beq_iff_eq, Bool.not_eq_true', decide_eq_false_iff_not] at hvalues
  exact hvalues.2 (h crossedCode 1 (submitted crossedCode) d (by decide +kernel)
    rfl (RunsTo.of_follow (fun _ _ _ => trivial) _ hd) hvalues.1)

end Dispatch
end Sisop

import Sisop.CallChain
import Sisop.Frames

/-!
# Who holds a frame

`processExecution` and `functionExecution` once more, with every `t_stack` behind its address: the
list of the image and the variables `element` of the nested activations hold addresses, and a
function reads and writes its own `PC` through the one it holds. The steps are those of `Exec`
when the addresses are followed.
-/

namespace Sisop

/-- `processImage->stack` is the list of `frames`. -/
structure FrameExec where
  processImage : TProcessImage
  frames : Frames TStack
  ioBlockInterrupt : Bool
  quantumCount : ℕ
  rafaga : ℕ
  point : Point

namespace FrameExec

def keepsRunning (quantum : ℤ) (env : Env) (f : FrameExec) : Bool :=
  !env.SUSPEND && !f.ioBlockInterrupt && decide ((f.quantumCount : ℤ) < quantum)

def enter (f : FrameExec) : FrameExec :=
  ⟨f.processImage, f.frames.activate, false, 0, 0, .loopTest⟩

def perform (f : FrameExec) (l : LineEffect) : FrameExec :=
  { f with
    processImage := { f.processImage with PC := l.PC, data := l.data }
    ioBlockInterrupt := f.ioBlockInterrupt || l.blocks
    point := if l.ticks then .algTest else .loopTest }

def call (code : List CString) (f : FrameExec) (linecall : ℕ) (functionName : CString) :
    Option FrameExec :=
  (findFunctionLine code functionName).map fun PC =>
    { f with frames := (f.frames.create ⟨functionName, PC, linecall⟩).activate }

def runLine (code : List CString) (f : FrameExec) (PC : ℕ) : LineOutcome → Option FrameExec
  | .effect l => some (f.perform l)
  | .asksPool => some { f with point := .poolTest }
  | .call functionName => f.call code PC functionName

def advanceProcess (f : FrameExec) : FrameExec :=
  { f with processImage := { f.processImage with PC := nextPC f.processImage.PC } }

def advanceFunction (p : ℕ) (element : TStack) (f : FrameExec) : FrameExec :=
  { f with frames := f.frames.modify p { element with PC := nextPC element.PC } }

def processStep (code : List CString) (quantum : ℤ) (env : Env) (f : FrameExec) :
    Option FrameExec := do
  let line ← code[f.processImage.PC]?
  if line ≠ finPrograma ∧ f.keepsRunning quantum env then
    if f.frames.stack ≠ [] then
      return { f with frames := f.frames.activate }
    else
      let f' := f.advanceProcess
      let next ← code[f'.processImage.PC]?
      let outcome ← processLine code 0 f'.processImage next
      f'.runLine code f'.processImage.PC outcome
  else return { f with point := .returned }

/-- `code[*PC]` and `(*element)->functionName` are read through the address in `element`. -/
def functionStep (code : List CString) (quantum : ℤ) (env : Env) (p : ℕ) (rest : List ℕ)
    (f : FrameExec) : Option FrameExec := do
  let element ← f.frames.heap p
  let line ← code[element.PC]?
  if ¬ isFinFuncion line element.functionName ∧ f.keepsRunning quantum env then
    let f' := f.advanceFunction p element
    let next ← code[nextPC element.PC]?
    let outcome ← functionLine 0 f'.processImage next
    f'.runLine code (nextPC element.PC) outcome
  else
    return { f with
      frames := f.frames.leave (isFinFuncion line element.functionName) p element rest }

def poolStep (code : List CString) (env : Env) (f : FrameExec) : Option FrameExec := do
  let l ← match f.frames.elements with
    | [] => code[f.processImage.PC]?.bind (processPoolLine env.poolFree 0 f.processImage)
    | p :: _ => (f.frames.heap p).bind fun element =>
      code[element.PC]?.bind (functionPoolLine env.poolFree 0 f.processImage element.PC)
  return f.perform l

def algStep (env : Env) (f : FrameExec) : FrameExec :=
  { f with
    quantumCount := if env.rr then f.quantumCount + 1 else f.quantumCount
    rafaga := f.rafaga + 1
    point := .loopTest }

def step (code : List CString) (quantum : ℤ) (env : Env) (f : FrameExec) : Option FrameExec :=
  match f.point, f.frames.elements with
  | .returned, _ => none
  | .algTest, _ => some (f.algStep env)
  | .poolTest, _ => f.poolStep code env
  | .loopTest, [] => f.processStep code quantum env
  | .loopTest, p :: rest => f.functionStep code quantum env p rest

def atFinPrograma (code : List CString) (f : FrameExec) : Bool :=
  code[f.processImage.PC]? == some finPrograma

end FrameExec

structure FrameDispatch where
  exec : FrameExec
  SUSPEND : Bool

namespace FrameDispatch

def start (processImage : TProcessImage) : FrameDispatch :=
  ⟨FrameExec.enter ⟨processImage, .none, false, 0, 0, .loopTest⟩, false⟩

def next (code : List CString) (quantum : ℤ) (d : FrameDispatch) : Action → Option FrameDispatch
  | .advance raise poolFree rr =>
    let SUSPEND := d.SUSPEND || raise
    (d.exec.step code quantum ⟨SUSPEND, poolFree, rr⟩).map fun f => ⟨f, SUSPEND⟩
  | .redispatch =>
    if d.exec.point = .returned ∧ ¬ d.exec.atFinPrograma code then some ⟨d.exec.enter, false⟩
    else none

end FrameDispatch

def Reads (heap : ℕ → Option TStack) (addresses : List ℕ) (frames : List TStack) : Prop :=
  addresses.map heap = frames.map some

structure Views (f : FrameExec) (e : Exec) : Prop where
  owned : f.frames.Owned
  stack : Reads f.frames.heap f.frames.stack e.stack
  elements : Reads f.frames.heap f.frames.elements e.elements
  image : e.processImage = { f.processImage with stack := e.stack }
  ioBlockInterrupt : f.ioBlockInterrupt = e.ioBlockInterrupt
  quantumCount : f.quantumCount = e.quantumCount
  rafaga : f.rafaga = e.rafaga
  point : f.point = e.point

section Addresses

variable {heap : ℕ → Option TStack} {addresses addresses' : List ℕ} {frames frames' : List TStack}
  {p : ℕ} {frame : TStack}

theorem reads_nil : Reads heap [] [] := rfl

theorem reads_cons : Reads heap (p :: addresses) (frame :: frames) ↔
    heap p = some frame ∧ Reads heap addresses frames := by
  rw [Reads, Reads, List.map_cons, List.map_cons, List.cons.injEq]

theorem Reads.append (h : Reads heap addresses frames) (h' : Reads heap addresses' frames') :
    Reads heap (addresses ++ addresses') (frames ++ frames') := by
  rw [Reads, List.map_append, List.map_append, h, h']

theorem Reads.length_eq (h : Reads heap addresses frames) :
    addresses.length = frames.length := by
  have hlength := congrArg List.length h
  rwa [List.length_map, List.length_map] at hlength

theorem Reads.eq_nil_iff (h : Reads heap addresses frames) : addresses = [] ↔ frames = [] := by
  rw [← List.length_eq_zero_iff, h.length_eq, List.length_eq_zero_iff]

theorem reads_concat (h : Reads heap addresses (frames ++ [frame])) :
    ∃ front p, addresses = front ++ [p] ∧ Reads heap front frames ∧ heap p = some frame := by
  rcases List.eq_nil_or_concat addresses with rfl | ⟨front, p, rfl⟩
  · have hlength := h.length_eq
    simp at hlength
  · rw [Reads, List.concat_eq_append, List.map_append, List.map_append] at h
    obtain ⟨hfront, hlast⟩ := List.append_inj' h rfl
    exact ⟨front, p, List.concat_eq_append, hfront, (List.cons.inj hlast).1⟩

theorem reads_singleton (h : heap p = some frame) : Reads heap [p] [frame] :=
  reads_cons.mpr ⟨h, reads_nil⟩

/-- A cell that nobody here looks at may change. -/
theorem Reads.update (h : Reads heap addresses frames) (hp : p ∉ addresses)
    (cell : Option TStack) : Reads (Function.update heap p cell) addresses frames := by
  rw [Reads, ← h]
  apply List.map_congr_left
  intro q hq
  exact Function.update_of_ne (by rintro rfl; exact hp hq) _ _

end Addresses

section Lines

variable {code : List CString} {image : TProcessImage} {stack : List TStack} {line : CString}

/-- No line looks at the list of the image. -/
theorem processLine_setStack :
    processLine code 0 { image with stack } line = processLine code 0 image line := rfl

theorem functionLine_setStack :
    functionLine 0 { image with stack } line = functionLine 0 image line := rfl

end Lines

section Options

variable {α β γ : Type} {R : β → γ → Prop}

theorem rel_bind_of_eq_some {x : Option α} {k : α → Option β} {l : α → Option γ}
    (h : ∀ a, x = some a → Option.Rel R (k a) (l a)) : Option.Rel R (x >>= k) (x >>= l) := by
  cases x with
  | none => exact .none
  | some a => exact h a rfl

theorem rel_map {δ ε : Type} {S : δ → ε → Prop} {x : Option β} {y : Option γ} {k : β → δ}
    {l : γ → ε} (h : Option.Rel R x y)
    (hmap : ∀ b c, x = some b → y = some c → R b c → S (k b) (l c)) :
    Option.Rel S (x.map k) (y.map l) := by
  cases h with
  | some hR => exact .some (hmap _ _ rfl rfl hR)
  | none => exact .none

theorem exists_of_rel_some {b : β} {y : Option γ} (h : Option.Rel R (some b) y) :
    ∃ c, y = some c ∧ R b c := by
  cases h with
  | some hR => exact ⟨_, rfl, hR⟩

end Options

namespace Views

variable {code : List CString} {quantum : ℤ} {env : Env} {f : FrameExec} {e : Exec} {p : ℕ}
  {rest : List ℕ}

theorem PC_eq (h : Views f e) : e.processImage.PC = f.processImage.PC := by rw [h.image]

theorem keepsRunning_eq (h : Views f e) :
    e.keepsRunning quantum env = f.keepsRunning quantum env := by
  rw [Exec.keepsRunning, FrameExec.keepsRunning, h.ioBlockInterrupt, h.quantumCount]

theorem perform (h : Views f e) (l : LineEffect) : Views (f.perform l) (e.perform l) := by
  refine ⟨h.owned, h.stack, h.elements, ?_, ?_, h.quantumCount, h.rafaga, rfl⟩
  · rw [Exec.perform, FrameExec.perform, h.image]
    rfl
  · rw [Exec.perform, FrameExec.perform, h.ioBlockInterrupt]

theorem not_mem_of_created (h : Views f e) :
    f.frames.created ∉ f.frames.stack ∧ f.frames.created ∉ f.frames.elements := by
  constructor
  · intro hmem
    exact absurd (h.owned.lt_created (List.mem_append_left _ hmem)) (lt_irrefl _)
  · intro hmem
    exact absurd (h.owned.lt_created (List.mem_append_right _ hmem)) (lt_irrefl _)

theorem call (h : Views f e) (functionName : CString) (PC linecall : ℕ) :
    Views { f with frames := (f.frames.create ⟨functionName, PC, linecall⟩).activate }
      { e with elements := ⟨functionName, PC, linecall⟩ :: e.elements } := by
  obtain ⟨hstack, helements⟩ := h.not_mem_of_created
  refine ⟨(h.owned.create _).activate, ?_, ?_, h.image, h.ioBlockInterrupt, h.quantumCount,
    h.rafaga, h.point⟩
  · rw [Frames.activate_create]
    exact h.stack.update hstack _
  · rw [Frames.activate_create]
    exact reads_cons.mpr ⟨Function.update_self _ _ _, h.elements.update helements _⟩

theorem activate (h : Views f e) :
    Views { f with frames := f.frames.activate } e.stackExecution.1 := by
  rcases List.eq_nil_or_concat e.stack with hnil | ⟨stack, element, hconcat⟩
  · have hframes : f.frames.activate = f.frames := by
      rw [Frames.activate, h.stack.eq_nil_iff.mpr hnil]
      rfl
    rw [Exec.stackExecution_of_nil hnil, hframes]
    exact h
  · rw [List.concat_eq_append] at hconcat
    obtain ⟨front, p, hfront, hread, hp⟩ := reads_concat (hconcat ▸ h.stack)
    have hframes : f.frames.activate =
        { f.frames with stack := front, elements := p :: f.frames.elements } := by
      rw [Frames.activate, hfront, List.getLast?_concat]
      simp only [List.dropLast_concat]
    rw [Exec.stackExecution_of_concat hconcat]
    refine ⟨h.owned.activate, ?_, ?_, ?_, h.ioBlockInterrupt, h.quantumCount, h.rafaga, h.point⟩
    · rw [hframes]
      exact hread
    · rw [hframes]
      exact reads_cons.mpr ⟨hp, h.elements⟩
    · rw [Exec.setStack, h.image]
      rfl

theorem runLine (h : Views f e) (PC : ℕ) (outcome : LineOutcome) :
    Option.Rel (fun f' (r : StepResult) => Views f' r.1) (f.runLine code PC outcome)
      (e.runLine code PC outcome) := by
  cases outcome with
  | effect l => exact .some (h.perform l)
  | asksPool =>
    exact .some ⟨h.owned, h.stack, h.elements, h.image, h.ioBlockInterrupt, h.quantumCount,
      h.rafaga, rfl⟩
  | call functionName =>
    rw [FrameExec.runLine, FrameExec.call, Exec.runLine, Exec.call_eq, Option.map_map]
    cases findFunctionLine code functionName with
    | none => exact .none
    | some entry => exact .some (h.call functionName entry PC)

theorem advanceFunction {element : TStack} {elements : List TStack} (h : Views f e)
    (hframes : f.frames.elements = p :: rest) (helements : e.elements = element :: elements) :
    Views (f.advanceFunction p element) (e.advanceFunction element elements) := by
  have hread := h.elements
  rw [hframes, helements, reads_cons] at hread
  obtain ⟨hheld, -, -⟩ := List.nodup_append'.mp h.owned.nodup
  obtain ⟨-, hactive, hapart⟩ := List.nodup_append'.mp hheld
  rw [hframes] at hactive hapart
  have hp : (f.frames.heap p).isSome := by rw [hread.1]; rfl
  have hstack : p ∉ f.frames.stack := fun hmem => hapart hmem List.mem_cons_self
  have hrest : p ∉ rest := (List.nodup_cons.mp hactive).1
  refine ⟨h.owned.modify hp _, h.stack.update hstack _, ?_, h.image, h.ioBlockInterrupt,
    h.quantumCount, h.rafaga, h.point⟩
  change Reads (Function.update f.frames.heap p _) f.frames.elements _
  rw [hframes]
  exact reads_cons.mpr ⟨Function.update_self _ _ _, hread.2.update hrest _⟩

theorem setFrames {g : Frames TStack} {stack elements : List TStack} (h : Views f e)
    (hg : g.Owned) (hstack : Reads g.heap g.stack stack)
    (helements : Reads g.heap g.elements elements) :
    Views { f with frames := g } { e.setStack stack with elements } := by
  refine ⟨hg, hstack, helements, ?_, h.ioBlockInterrupt, h.quantumCount, h.rafaga, h.point⟩
  rw [Exec.setStack, h.image]
  rfl

/-- The caller goes on with the last frame of the list, if there is one. -/
theorem returnTo {g : Frames TStack} {finished : Bool} {element : TStack}
    {stack elements : List TStack} (h : Views f e)
    (hg : ({ g with elements := rest } : Frames TStack).Owned)
    (hstack : Reads g.heap g.stack stack) (helements : Reads g.heap rest elements)
    (hleft : (if finished then e.stack else e.stack ++ [element]) = stack) :
    Views { f with frames := g.returnTo rest } (e.leaveFunction finished element elements) := by
  simp only [Exec.leaveFunction, hleft]
  rcases elements with _ | ⟨caller, callers⟩
  · obtain rfl := helements.eq_nil_iff.mpr rfl
    exact h.setFrames hg hstack helements
  · rcases rest with _ | ⟨p, rest⟩
    · exact absurd helements.length_eq (by simp)
    have howned := hg.returnTo
    rcases List.eq_nil_or_concat stack with rfl | ⟨front, newElement, rfl⟩
    · rw [Frames.returnTo_of_stack_nil (hstack.eq_nil_iff.mpr rfl)] at howned ⊢
      exact h.setFrames howned hstack helements
    · rw [List.concat_eq_append] at hstack ⊢
      obtain ⟨front', q, hfront, hread, hq⟩ := reads_concat hstack
      obtain ⟨hp, hcallers⟩ := reads_cons.mp helements
      rw [Frames.returnTo_of_stack_concat hfront] at howned ⊢
      rw [List.getLast?_concat]
      dsimp only [reorderStack]
      rw [List.dropLast_concat]
      exact h.setFrames howned (reads_cons.mpr ⟨hp, hread⟩) (reads_cons.mpr ⟨hq, hcallers⟩)

theorem leaveFunction {element : TStack} {elements : List TStack} (h : Views f e)
    (hframes : f.frames.elements = p :: rest) (helements : e.elements = element :: elements)
    (finished : Bool) :
    Views { f with frames := f.frames.leave finished p element rest }
      (e.leaveFunction finished element elements) := by
  have hread := h.elements
  rw [hframes, helements, reads_cons] at hread
  obtain ⟨hheld, -, -⟩ := List.nodup_append'.mp h.owned.nodup
  obtain ⟨-, hactive, hapart⟩ := List.nodup_append'.mp hheld
  rw [hframes] at hactive hapart
  have hstack : p ∉ f.frames.stack := fun hmem => hapart hmem List.mem_cons_self
  have hrest : p ∉ rest := (List.nodup_cons.mp hactive).1
  cases finished with
  | false =>
    exact h.returnTo (h.owned.requeue hframes) (h.stack.append (reads_singleton hread.1)) hread.2
      rfl
  | true =>
    exact h.returnTo (h.owned.free hframes element) (h.stack.update hstack _)
      (hread.2.update hrest _) rfl

theorem processStep (h : Views f e) :
    Option.Rel (fun f' (r : StepResult) => Views f' r.1) (f.processStep code quantum env)
      (e.processStep code quantum 0 env) := by
  rw [FrameExec.processStep, Exec.processStep, h.PC_eq, h.keepsRunning_eq]
  apply rel_bind_of_eq_some
  intro line hline
  by_cases hkeep : line ≠ finPrograma ∧ f.keepsRunning quantum env = true
  · rw [if_pos hkeep, if_pos hkeep]
    by_cases hstack : e.stack = []
    · have hframes : f.frames.stack = [] := h.stack.eq_nil_iff.mpr hstack
      rw [if_neg (not_not.mpr hframes), if_neg (not_not.mpr hstack)]
      have hadvanced : Views f.advanceProcess e.advanceProcess :=
        ⟨h.owned, h.stack, h.elements, by rw [Exec.advanceProcess, h.image]; rfl,
          h.ioBlockInterrupt, h.quantumCount, h.rafaga, h.point⟩
      dsimp only
      rw [hadvanced.PC_eq, hadvanced.image]
      apply rel_bind_of_eq_some
      intro next hnext
      rw [processLine_setStack]
      apply rel_bind_of_eq_some
      intro outcome houtcome
      exact hadvanced.runLine _ outcome
    · have hframes : f.frames.stack ≠ [] := fun hnil => hstack (h.stack.eq_nil_iff.mp hnil)
      rw [if_pos hframes, if_pos hstack]
      exact .some h.activate
  · rw [if_neg hkeep, if_neg hkeep]
    exact .some ⟨h.owned, h.stack, h.elements, h.image, h.ioBlockInterrupt, h.quantumCount,
      h.rafaga, rfl⟩

theorem functionStep {element : TStack} {elements : List TStack} (h : Views f e)
    (hframes : f.frames.elements = p :: rest) (helements : e.elements = element :: elements) :
    Option.Rel (fun f' (r : StepResult) => Views f' r.1) (f.functionStep code quantum env p rest)
      (e.functionStep code quantum 0 env element elements) := by
  have hread := h.elements
  rw [hframes, helements, reads_cons] at hread
  rw [FrameExec.functionStep, bind_of_eq_some hread.1, Exec.functionStep, h.keepsRunning_eq]
  apply rel_bind_of_eq_some
  intro line hline
  by_cases hkeep : ¬ isFinFuncion line element.functionName = true ∧
      f.keepsRunning quantum env = true
  · rw [if_pos hkeep, if_pos hkeep]
    have hadvanced := h.advanceFunction hframes helements
    apply rel_bind_of_eq_some
    intro next hnext
    rw [hadvanced.image, functionLine_setStack]
    apply rel_bind_of_eq_some
    intro outcome houtcome
    exact hadvanced.runLine _ outcome
  · rw [if_neg hkeep, if_neg hkeep]
    exact .some (h.leaveFunction hframes helements _)

theorem poolStep (h : Views f e) :
    Option.Rel (fun f' (r : StepResult) => Views f' r.1) (f.poolStep code env)
      (e.poolStep code 0 env) := by
  rw [FrameExec.poolStep, Exec.poolStep]
  rcases helements : e.elements with _ | ⟨element, elements⟩
  · have hframes : f.frames.elements = [] := h.elements.eq_nil_iff.mpr helements
    rw [hframes]
    dsimp only
    rw [h.PC_eq, h.image]
    apply rel_bind_of_eq_some
    intro l hl
    exact .some (h.perform l)
  · rcases hframes : f.frames.elements with _ | ⟨p, rest⟩
    · rw [h.elements.eq_nil_iff.mp hframes] at helements
      cases helements
    have hread := h.elements
    rw [hframes, helements, reads_cons] at hread
    dsimp only
    rw [hread.1, h.image]
    apply rel_bind_of_eq_some
    intro l hl
    exact .some (h.perform l)

/-- The machine with addresses and the one without do the same. -/
theorem step (h : Views f e) :
    Option.Rel (fun f' (r : StepResult) => Views f' r.1) (f.step code quantum env)
      (e.step code quantum 0 env) := by
  rw [FrameExec.step, Exec.step, h.point]
  cases hpoint : e.point with
  | loopTest =>
    rcases helements : e.elements with _ | ⟨element, elements⟩
    · rw [h.elements.eq_nil_iff.mpr helements]
      exact h.processStep
    · rcases hframes : f.frames.elements with _ | ⟨p, rest⟩
      · rw [h.elements.eq_nil_iff.mp hframes] at helements
        cases helements
      exact h.functionStep hframes helements
  | poolTest => exact h.poolStep
  | algTest =>
    refine .some ⟨h.owned, h.stack, h.elements, h.image, h.ioBlockInterrupt, ?_, ?_, rfl⟩
    · rw [FrameExec.algStep, Exec.algStep, h.quantumCount]
    · rw [FrameExec.algStep, Exec.algStep, h.rafaga]
  | returned => exact .none

theorem enter (h : Views f e) (helements : e.elements = []) :
    Views f.enter (Exec.enter e.processImage).1 := by
  have hread := h.elements
  rw [helements] at hread
  have hentry : Views ⟨f.processImage, f.frames, false, 0, 0, .loopTest⟩
      (Exec.atEntry e.processImage) :=
    ⟨h.owned, h.stack, hread, h.image, rfl, rfl, rfl, rfl⟩
  exact hentry.activate

end Views

/-- Nothing is active any more when `processExecution` returns, and a function is called from a
line that ends with `()`. -/
structure Settled (code : List CString) (e : Exec) : Prop where
  atCall : e.AtCall code
  returned : e.point = .returned → e.elements = []

section Runs

variable {code : List CString} {quantum : ℤ} {env : Env} {e e' : Exec} {ops : List Operation}
  {events : List Event}

theorem Settled.of_moves (he : Settled code e) (h : Exec.Moves code quantum 0 env e e' ops events) :
    Settled code e' := by
  refine ⟨h.atCall he.atCall, ?_⟩
  intro hreturned
  cases h with
  | returns _ helements => exact helements
  | resumes hpoint =>
    obtain ⟨stack, elements, heq⟩ := Exec.stackExecution_eq e
    rw [heq] at hreturned
    rw [show e.point = .returned from hreturned] at hpoint
    cases hpoint
  | @leaves element rest line hpoint =>
    obtain ⟨stack, elements, heq⟩ :=
      Exec.leaveFunction_eq (isFinFuncion line element.functionName) element rest e
    rw [heq] at hreturned
    rw [show e.point = .returned from hreturned] at hpoint
    cases hpoint
  | runsLine hpoint _ _ _ _ _ _ _ hrun =>
    exact absurd hreturned (Exec.runLine_frames hrun (by simp [Exec.advanceProcess, hpoint])).1
  | runsFunctionLine hpoint _ _ _ _ _ _ hrun =>
    exact absurd hreturned (Exec.runLine_frames hrun (by simp [Exec.advanceFunction, hpoint])).1
  | asksPool | asksPoolInFunction =>
    rw [Exec.perform] at hreturned
    dsimp only at hreturned
    split_ifs at hreturned
  | counts => cases hreturned

end Runs

structure DispatchViews (code : List CString) (d : FrameDispatch) (v : Dispatch) : Prop where
  views : Views d.exec v.exec
  SUSPEND : d.SUSPEND = v.SUSPEND
  settled : Settled code v.exec

section Dispatches

variable {code : List CString} {quantum : ℤ} {d d' : FrameDispatch} {v : Dispatch}

theorem settled_enter {image : TProcessImage} (h : image.stack ≠ [] →
    ∃ line, code[image.PC]? = some line ∧ stringEndsWith line (cstr "()") = true) :
    Settled code (Exec.enter image).1 := by
  have hsound : (Exec.enter image).1.ChainSound code 0 false := Dispatch.chainSound_enter h
  exact ⟨hsound.atCall, hsound.returned⟩

theorem DispatchViews.next (h : DispatchViews code d v) (a : Action) :
    Option.Rel (DispatchViews code) (d.next code quantum a) (v.next code quantum a) := by
  cases a with
  | advance raise poolFree rr =>
    rw [FrameDispatch.next, Dispatch.next, h.SUSPEND]
    apply rel_map h.views.step
    intro f' r _ hstep hviews
    exact ⟨hviews, rfl, h.settled.of_moves (Exec.moves_of_step hstep)⟩
  | redispatch =>
    have hfin : d.exec.atFinPrograma code = v.exec.atFinPrograma code := by
      rw [FrameExec.atFinPrograma, Exec.atFinPrograma, h.views.PC_eq]
    rw [FrameDispatch.next, Dispatch.next, h.views.point, hfin]
    by_cases hreturned : v.exec.point = .returned ∧ ¬ v.exec.atFinPrograma code = true
    · rw [if_pos hreturned, if_pos hreturned]
      have helements := h.settled.returned hreturned.1
      exact .some ⟨h.views.enter helements, rfl,
        settled_enter fun hstack => h.settled.atCall (.inr hstack)⟩
    · rw [if_neg hreturned, if_neg hreturned]
      exact .none

theorem dispatchViews_start {image : TProcessImage} (himage : image.stack = []) :
    DispatchViews code (FrameDispatch.start image) (Dispatch.start image) := by
  have hempty : Views ⟨image, .none, false, 0, 0, .loopTest⟩ (Exec.atEntry image) := by
    refine ⟨Frames.owned_none, ?_, reads_nil, rfl, rfl, rfl, rfl, rfl⟩
    rw [Exec.stack, Exec.atEntry, himage]
    exact reads_nil
  exact ⟨hempty.enter rfl, rfl, settled_enter (absurd himage)⟩

/-- Every run with addresses is a run of the interpreter. -/
theorem run_views {image : TProcessImage} (himage : image.stack = [])
    (h : RunsTo (FrameDispatch.next code quantum) (fun _ _ => True) (FrameDispatch.start image) d) :
    ∃ v, RunsTo (Dispatch.next code quantum) (fun _ _ => True) (Dispatch.start image) v ∧
      DispatchViews code d v := by
  induction h with
  | start => exact ⟨_, .start, dispatchViews_start himage⟩
  | step a _ _ hnext ih =>
    obtain ⟨v, hrun, hviews⟩ := ih
    have hrel : Option.Rel (DispatchViews code) (FrameDispatch.next code quantum _ a)
      (Dispatch.next code quantum v a) := hviews.next a
    rw [hnext] at hrel
    obtain ⟨v', hv', hviews'⟩ := exists_of_rel_some hrel
    exact ⟨v', hrun.step a trivial hv', hviews'⟩

/-- A frame may be made, and one that is freed belongs to a function on its own last line. -/
structure FrameStep (code : List CString) (g g' : Frames TStack) : Prop where
  created : g.created ≤ g'.created
  freed : g'.freed = g.freed ∨ ∃ p rest element line, g.elements = p :: rest ∧
    g.heap p = some element ∧ code[element.PC]? = some line ∧
    isFinFuncion line element.functionName = true ∧ g'.freed = g.freed ++ [(p, element)]

theorem frameStep_activate (g : Frames TStack) : FrameStep code g g.activate :=
  ⟨by rw [Frames.activate_created], .inl (Frames.activate_freed g)⟩

theorem runLine_frames {f f' : FrameExec} {PC : ℕ} {outcome : LineOutcome}
    (h : f.runLine code PC outcome = some f') :
    f.frames.created ≤ f'.frames.created ∧ f'.frames.freed = f.frames.freed := by
  cases outcome with
  | effect l =>
    cases h
    exact ⟨le_rfl, rfl⟩
  | asksPool =>
    cases h
    exact ⟨le_rfl, rfl⟩
  | call functionName =>
    obtain ⟨entry, -, rfl⟩ := Option.map_eq_some_iff.mp h
    constructor
    · rw [Frames.activate_created]
      exact Nat.le_succ _
    · exact Frames.activate_freed _

theorem frameStep_of_step {env : Env} {f f' : FrameExec}
    (h : f.step code quantum env = some f') : FrameStep code f.frames f'.frames := by
  rw [FrameExec.step] at h
  cases hpoint : f.point with
  | loopTest =>
    rw [hpoint] at h
    rcases helements : f.frames.elements with _ | ⟨p, rest⟩
    · rw [helements] at h
      obtain ⟨line, -, h⟩ := Option.bind_eq_some_iff.mp h
      split_ifs at h with hkeep hstack
      · cases h
        exact frameStep_activate f.frames
      · obtain ⟨next, -, h⟩ := Option.bind_eq_some_iff.mp h
        obtain ⟨outcome, -, h⟩ := Option.bind_eq_some_iff.mp h
        obtain ⟨hcreated, hfreed⟩ := runLine_frames h
        exact ⟨hcreated, .inl hfreed⟩
      · cases h
        exact ⟨le_rfl, .inl rfl⟩
    · rw [helements] at h
      obtain ⟨element, helement, h⟩ := Option.bind_eq_some_iff.mp h
      obtain ⟨line, hline, h⟩ := Option.bind_eq_some_iff.mp h
      split_ifs at h with hkeep
      · obtain ⟨next, -, h⟩ := Option.bind_eq_some_iff.mp h
        obtain ⟨outcome, -, h⟩ := Option.bind_eq_some_iff.mp h
        obtain ⟨hcreated, hfreed⟩ := runLine_frames h
        exact ⟨hcreated, .inl hfreed⟩
      · cases h
        refine ⟨(Frames.leave_created ..).ge, ?_⟩
        dsimp only
        rw [Frames.leave_freed]
        cases hfin : isFinFuncion line element.functionName with
        | false => exact .inl rfl
        | true => exact .inr ⟨p, rest, element, line, helements, helement, hline, hfin, rfl⟩
  | poolTest =>
    rw [hpoint] at h
    replace h : f.poolStep code env = some f' := h
    rw [FrameExec.poolStep] at h
    rcases helements : f.frames.elements with _ | ⟨p, rest⟩
    all_goals
      rw [helements] at h
      obtain ⟨l, -, h⟩ := Option.bind_eq_some_iff.mp h
      cases h
      exact ⟨le_rfl, .inl rfl⟩
  | algTest =>
    rw [hpoint] at h
    obtain rfl := Option.some.inj (show some (f.algStep env) = some f' from h)
    exact ⟨le_rfl, .inl rfl⟩
  | returned =>
    rw [hpoint] at h
    cases h

theorem frameStep_of_next {a : Action} (h : d.next code quantum a = some d') :
    FrameStep code d.exec.frames d'.exec.frames := by
  cases a with
  | advance raise poolFree rr =>
    obtain ⟨f', hstep, rfl⟩ := Option.map_eq_some_iff.mp h
    exact frameStep_of_step hstep
  | redispatch =>
    rw [FrameDispatch.next] at h
    split_ifs at h
    cases h
    exact frameStep_activate _

end Dispatches

structure FramesConserved (code : List CString) (frames : Frames TStack) : Prop where
  /-- A frame that was made and is not finished is in the list or with one function. -/
  held : ∀ p < frames.created, p ∉ frames.freed.map Prod.fst →
    (frames.stack ++ frames.elements).count p = 1
  freedOnce : ∀ p ∈ frames.freed.map Prod.fst,
    (frames.freed.map Prod.fst).count p = 1 ∧ p ∉ frames.stack ++ frames.elements
  finished : ∀ entry ∈ frames.freed, ∃ line, code[entry.2.PC]? = some line ∧
    isFinFuncion line entry.2.functionName = true

section Conservation

variable {code : List CString} {quantum : ℤ} {d d' : FrameDispatch} {image : TProcessImage}

theorem run_finished
    (h : RunsTo (FrameDispatch.next code quantum) (fun _ _ => True) (FrameDispatch.start image) d) :
    ∀ entry ∈ d.exec.frames.freed, ∃ line, code[entry.2.PC]? = some line ∧
      isFinFuncion line entry.2.functionName = true := by
  induction h with
  | start =>
    intro entry hentry
    rw [FrameDispatch.start, FrameExec.enter, Frames.activate_freed] at hentry
    cases hentry
  | step a _ _ hnext ih =>
    intro entry hentry
    rcases (frameStep_of_next hnext).freed with
      heq | ⟨p, rest, element, line, -, -, hline, hfin, heq⟩
    · exact ih entry (heq ▸ hentry)
    · rw [heq, List.mem_append, List.mem_singleton] at hentry
      rcases hentry with hentry | rfl
      · exact ih entry hentry
      · exact ⟨line, hline, hfin⟩

theorem conserved_of_owned {frames : Frames TStack} (h : frames.Owned)
    (hfinished : ∀ entry ∈ frames.freed, ∃ line, code[entry.2.PC]? = some line ∧
      isFinFuncion line entry.2.functionName = true) : FramesConserved code frames := by
  obtain ⟨-, hfreed, hapart⟩ := List.nodup_append'.mp h.nodup
  refine ⟨?_, ?_, hfinished⟩
  · intro p hp hnot
    exact (h.count_eq_one (h.isSome_of_not_freed hp hnot)).1
  · intro p hp
    exact ⟨List.count_eq_one_of_mem hfreed hp, fun hmem => hapart hmem hp⟩

/-- A frame that a step frees is the one of the innermost function, on its own last line. -/
theorem freed_at_end {g g' : Frames TStack} (howned : g.Owned) (howned' : g'.Owned)
    (h : FrameStep code g g') {p : ℕ} {frame : TStack} (hp : g.heap p = some frame)
    (hp' : g'.heap p = none) :
    g.elements.head? = some p ∧ ∃ line, code[frame.PC]? = some line ∧
      isFinFuncion line frame.functionName = true := by
  have hsome : (g.heap p).isSome := by rw [hp]; rfl
  have hlt := howned.lt_created ((howned.live p).mp hsome)
  have hnot := (howned.count_eq_one hsome).2
  have hfreed : p ∈ g'.freed.map Prod.fst := by
    by_contra hnot'
    have hsome' := howned'.isSome_of_not_freed (hlt.trans_le h.created) hnot'
    rw [hp'] at hsome'
    cases hsome'
  rcases h.freed with heq | ⟨q, rest, element, line, helements, helement, hline, hfin, heq⟩
  · rw [heq] at hfreed
    exact absurd hfreed hnot
  · rw [heq, List.map_append, List.mem_append, List.map_singleton, List.mem_singleton] at hfreed
    obtain rfl := hfreed.resolve_left hnot
    obtain rfl := Option.some.inj (hp.symm.trans helement)
    exact ⟨by rw [helements]; rfl, line, hline, hfin⟩

/-- In every run of a script, however often it is interrupted, the frames are conserved, and each
step frees nothing but the frame of a function that stands on its own last line; no frame is left
when the script has finished. -/
theorem frames_conserved (code : List CString) (quantum : ℤ) (clientfd pid : ℕ)
    (priority : Int32) (script : CString) (TANT : ℚ) (d : FrameDispatch)
    (h : RunsTo (FrameDispatch.next code quantum) (fun _ _ => True)
      (FrameDispatch.start (newImage clientfd pid priority script TANT)) d) :
    FramesConserved code d.exec.frames ∧
      (∀ a d' p frame, d.next code quantum a = some d' → d.exec.frames.heap p = some frame →
        d'.exec.frames.heap p = none → d.exec.frames.elements.head? = some p ∧
          ∃ line, code[frame.PC]? = some line ∧ isFinFuncion line frame.functionName = true) ∧
      (d.exec.point = .returned → d.exec.atFinPrograma code = true →
        d.exec.frames.stack ++ d.exec.frames.elements = []) ∧
      ∃ v, RunsTo (Dispatch.next code quantum) (fun _ _ => True)
        (Dispatch.start (newImage clientfd pid priority script TANT)) v ∧ Views d.exec v.exec := by
  obtain ⟨v, hrun, hviews⟩ := run_views rfl h
  refine ⟨conserved_of_owned hviews.views.owned (run_finished h), ?_, ?_, v, hrun, hviews.views⟩
  · intro a d' p frame hnext hp hp'
    obtain ⟨v', -, hviews'⟩ := run_views rfl (h.step a trivial hnext)
    exact freed_at_end hviews.views.owned hviews'.views.owned (frameStep_of_next hnext) hp hp'
  · intro hreturned hfin
    rw [hviews.views.point] at hreturned
    have helements := hviews.settled.returned hreturned
    have hstack : v.exec.stack = [] := by
      by_contra hne
      obtain ⟨line, hline, hends⟩ := hviews.settled.atCall (.inr hne)
      rw [hviews.views.PC_eq] at hline
      rw [FrameExec.atFinPrograma, hline, beq_iff_eq, Option.some.injEq] at hfin
      exact ne_finPrograma hends hfin
    rw [hviews.views.stack.eq_nil_iff.mpr hstack, hviews.views.elements.eq_nil_iff.mpr helements]
    rfl

theorem frames_conserved_nested : ∃ d : FrameDispatch,
    d.exec.frames.stack.length = 2 ∧ FramesConserved Dispatch.nestedCode d.exec.frames := by
  have hrun : ((follow (FrameDispatch.next Dispatch.nestedCode 1) (fun _ _ => true)
      (FrameDispatch.start (Dispatch.submitted Dispatch.nestedCode))
      (Dispatch.dispatchesOf [6, 6])).any fun d => d.exec.frames.stack.length == 2) = true := by
    decide +kernel
  obtain ⟨d, hd, hlength⟩ := (Option.any_eq_true _ _).mp hrun
  exact ⟨d, beq_iff_eq.mp hlength, (frames_conserved Dispatch.nestedCode 1 5 11 0 _ 0 d
    (RunsTo.of_follow (fun _ _ _ => trivial) _ hd)).1⟩

end Conservation

end Sisop

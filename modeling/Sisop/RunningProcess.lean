import Sisop.RunningImage
import Sisop.ThreadSteps

/-!
# The image that `PROCER` runs, in every state of PP

Images are written by `LTSconex` when it builds them and by `PROCER` after a dispatch. Between
dispatches an image with calls on its list stands on the line of the outermost one.
-/

namespace Sisop
namespace PP

variable {cfg : Config} {s s' : Shared} {pc : Label} {th : Thread Operation Label}

/-- The three ways in which a control step treats the images. -/
theorem image_control {t : Tid} (h : Moves cfg s t pc s' th) :
    s'.image = s.image ∨
      (∃ image, s'.image = Function.update s.image s.allocated image ∧ image.stack = [] ∧
        image.PC = 0) ∨
      ∃ p code e, t = .procer ∧ pc = .execute p code e ∧
        s'.image = Function.update s.image p (PROCER.estimate cfg e) := by
  cases h with
  | ltsConex h =>
    cases h with
    | admission | delay => exact .inr (.inl ⟨_, rfl, rfl, rfl⟩)
    | _ => exact .inl rfl
  | sts h =>
    cases h with
    | orderInsert h => cases h <;> exact .inl rfl
    | _ => exact .inl rfl
  | configure h =>
    cases h with
    | orderInsert h => cases h <;> exact .inl rfl
    | _ => exact .inl rfl
  | procer h =>
    cases h with
    | pop | run => exact .inl rfl
    | _ => exact .inr (.inr ⟨_, _, _, rfl, rfl, rfl⟩)
  | _ => exact .inl rfl

/-- A dispatch of the image starts on the line of the outermost call, if there is one. -/
def Resumable (image : TProcessImage) : Prop :=
  ∀ code, codeSegmentCreator image.code = some code → (Exec.atEntry image).AtCall code

theorem resumable_of_stack_nil {image : TProcessImage} (h : image.stack = []) :
    Resumable image := by
  intro code _ hactive
  exact absurd h (hactive.resolve_left (not_not.mpr rfl))

structure Runs (code : List CString) (e : Exec) : Prop where
  loaded : codeSegmentCreator e.processImage.code = some code
  sound : e.Sound code

theorem Runs.resumable {code : List CString} {e : Exec} (h : Runs code e) :
    Resumable (PROCER.estimate cfg e) := by
  intro code' hcode' hactive
  obtain rfl : code = code' := Option.some.inj (h.loaded.symm.trans hcode')
  exact h.sound.atCall (.inr (hactive.resolve_left (not_not.mpr rfl)))

theorem runs_enter {image : TProcessImage} {code : List CString} (h : Resumable image)
    (hcode : codeSegmentCreator image.code = some code) : Runs code (Exec.enter image).1 := by
  obtain ⟨stack, elements, heq⟩ := Exec.stackExecution_eq (Exec.atEntry image)
  have hatCall : (Exec.enter image).1.AtCall code := by
    by_cases hstack : image.stack = []
    · rw [Exec.enter, Exec.stackExecution_of_nil (e := Exec.atEntry image) hstack]
      exact h code hcode
    · exact (h code hcode).of_PC_eq (.inr hstack) (Exec.stackExecution_PC _)
  refine ⟨?_, .of_running hatCall ?_⟩
  · rw [Exec.enter, heq]
    exact hcode
  · rw [Exec.enter, heq]
    rfl

section Runs

variable {ok : PP → Step → Prop} {st st' : PP} {a : Step} {ALG : Algorithm}
  {priorities : QueueName → ℤ}

structure ProcessorSound (st : PP) : Prop where
  resumable : ∀ p, Resumable (st.shared.image p)
  runs : ∀ p code e, (st.thread .procer).pc = .execute p code e → Runs code e

theorem resumable_update {image : Ptr → TProcessImage} (h : ∀ p, Resumable (image p)) {p : Ptr}
    {processImage : TProcessImage} (hp : Resumable processImage) (p' : Ptr) :
    Resumable (Function.update image p processImage p') := by
  by_cases heq : p' = p
  · rw [heq, Function.update_self]
    exact hp
  · rw [Function.update_of_ne heq]
    exact h p'

theorem resumable_next (h : next cfg st a = some st') (hst : ProcessorSound st) (p : Ptr) :
    Resumable (st'.shared.image p) := by
  rcases shared_next h with ⟨op, ops, -, hexec, -⟩ | ⟨-, hmoves, -⟩
  · rw [(unwritten_exec hexec).image]
    exact hst.resumable p
  · rcases image_control hmoves with heq | ⟨image, heq, hstack, -⟩ | ⟨p', code, e, ha, hpc, heq⟩
    · rw [heq]
      exact hst.resumable p
    · rw [heq]
      exact resumable_update hst.resumable (resumable_of_stack_nil hstack) p
    · rw [ha] at hpc
      rw [heq]
      exact resumable_update hst.resumable (hst.runs _ _ _ hpc).resumable p

theorem runs_control (h : PROCER.Moves cfg s pc s' th) (hresumable : ∀ p, Resumable (s.image p))
    (hruns : ∀ p code e, pc = .execute p code e → Runs code e) {p : Ptr} {code : List CString}
    {e : Exec} (hth : th.pc = .execute p code e) : Runs code e := by
  cases h with
  | pop hqueue hcode =>
    cases hth
    exact runs_enter (hresumable _) hcode
  | run _ hmoves =>
    cases hth
    obtain ⟨hloaded, hsound⟩ := hruns _ _ _ rfl
    exact ⟨hmoves.identity.2.1 ▸ hloaded, hmoves.sound hsound⟩
  | _ => cases hth

theorem processorSound_next (h : next cfg st a = some st') (hst : ProcessorSound st) :
    ProcessorSound st' := by
  refine ⟨resumable_next h hst, ?_⟩
  rcases thread_next h .procer with ⟨-, hth⟩ | ⟨op, ops, -, -, -, hth⟩ | ⟨-, -, hmoves⟩
  · rw [hth]
    exact hst.runs
  · rw [hth]
    exact hst.runs
  · cases hmoves with
    | procer hmoves => exact fun p code e => runs_control hmoves hst.resumable hst.runs

theorem processorSound_run (h : RunsTo (next cfg) ok (start cfg ALG priorities) st) :
    ProcessorSound st :=
  h.invariant ⟨fun _ => resumable_of_stack_nil rfl, fun _ _ _ hpc => by cases hpc⟩
    fun _ _ _ hst _ hnext => processorSound_next hnext hst

end Runs

end PP
end Sisop

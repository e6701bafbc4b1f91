import Mathlib.Data.List.Perm.Basic
import Mathlib.Data.List.Nodup
import Mathlib.Data.List.Range
import Mathlib.Logic.Function.Basic

/-!
# Frames that a list and a chain of activations hold by their addresses

The activations are nested calls, innermost first; each of them holds the address of its current
frame. A frame is made on the list, moves to an activation and back, and is freed by the activation
that holds it. Nothing here looks into a frame.
-/

namespace Sisop

structure Frames (α : Type*) where
  stack : List ℕ
  elements : List ℕ
  heap : ℕ → Option α
  created : ℕ
  /-- Every `free`, with what the frame held. -/
  freed : List (ℕ × α)

namespace Frames

variable {α : Type*} {g : Frames α} {p : ℕ} {rest : List ℕ} {frame : α}

def none : Frames α := ⟨[], [], fun _ => .none, 0, []⟩

def create (frame : α) (g : Frames α) : Frames α :=
  { g with
    stack := g.stack ++ [g.created]
    heap := Function.update g.heap g.created (some frame)
    created := g.created + 1 }

def activate (g : Frames α) : Frames α :=
  match g.stack.getLast? with
  | .none => g
  | some p => { g with stack := g.stack.dropLast, elements := p :: g.elements }

def modify (p : ℕ) (frame : α) (g : Frames α) : Frames α :=
  { g with heap := Function.update g.heap p (some frame) }

def free (p : ℕ) (frame : α) (g : Frames α) : Frames α :=
  { g with heap := Function.update g.heap p .none, freed := g.freed ++ [(p, frame)] }

/-- The list becomes the waiting frame and all but the last of it; the last one is next. -/
def reorder (stack : List ℕ) (element newElement : ℕ) : List ℕ × ℕ :=
  (element :: stack.dropLast, newElement)

/-- An activation hands its frame back to the list. -/
def requeue (p : ℕ) (g : Frames α) : Frames α := { g with stack := g.stack ++ [p] }

/-- The innermost activation is over; its caller goes on with the last frame of the list, if there
is one. -/
def returnTo (rest : List ℕ) (g : Frames α) : Frames α :=
  match rest with
  | [] => { g with elements := [] }
  | caller :: callers =>
    match g.stack.getLast? with
    | .none => { g with elements := caller :: callers }
    | some newElement =>
      { g with
        stack := (reorder g.stack caller newElement).1
        elements := (reorder g.stack caller newElement).2 :: callers }

def leave (finished : Bool) (p : ℕ) (frame : α) (rest : List ℕ) (g : Frames α) : Frames α :=
  (if finished then g.free p frame else g.requeue p).returnTo rest

/-- A new frame is held by the activation it is made for. -/
theorem activate_create (frame : α) (g : Frames α) :
    (g.create frame).activate =
      { g with
        elements := g.created :: g.elements
        heap := Function.update g.heap g.created (some frame)
        created := g.created + 1 } := by
  rw [activate, create]
  simp only [List.getLast?_concat, List.dropLast_concat]

theorem returnTo_of_stack_nil (h : g.stack = []) (rest : List ℕ) :
    g.returnTo rest = { g with elements := rest } := by
  cases rest with
  | nil => rfl
  | cons caller callers =>
    rw [returnTo, h]
    rfl

theorem returnTo_of_stack_concat {front : List ℕ} (h : g.stack = front ++ [p]) (caller : ℕ)
    (callers : List ℕ) :
    g.returnTo (caller :: callers) =
      { g with stack := caller :: front, elements := p :: callers } := by
  rw [returnTo, h, List.getLast?_concat]
  simp only [reorder, List.dropLast_concat]

@[simp] theorem activate_freed (g : Frames α) : g.activate.freed = g.freed := by
  rw [activate]
  split <;> rfl

@[simp] theorem returnTo_freed (rest : List ℕ) (g : Frames α) :
    (g.returnTo rest).freed = g.freed := by
  unfold returnTo
  split
  · rfl
  · split <;> rfl

@[simp] theorem activate_created (g : Frames α) : g.activate.created = g.created := by
  rw [activate]
  split <;> rfl

@[simp] theorem returnTo_created (rest : List ℕ) (g : Frames α) :
    (g.returnTo rest).created = g.created := by
  unfold returnTo
  split
  · rfl
  · split <;> rfl

theorem leave_created (finished : Bool) (p : ℕ) (frame : α) (rest : List ℕ) (g : Frames α) :
    (g.leave finished p frame rest).created = g.created := by
  rw [leave, returnTo_created]
  cases finished <;> rfl

theorem leave_freed (finished : Bool) (p : ℕ) (frame : α) (rest : List ℕ) (g : Frames α) :
    (g.leave finished p frame rest).freed =
      if finished then g.freed ++ [(p, frame)] else g.freed := by
  rw [leave, returnTo_freed]
  cases finished <;> rfl

/-- Every frame that was ever made is in one place: on the list, in an activation, or freed. -/
structure Owned (g : Frames α) : Prop where
  ledger : (g.stack ++ g.elements ++ g.freed.map Prod.fst).Perm (List.range g.created)
  live : ∀ p, (g.heap p).isSome ↔ p ∈ g.stack ++ g.elements

theorem owned_none : (none : Frames α).Owned := by
  refine ⟨.refl _, ?_⟩
  intro p
  simp [none]

theorem Owned.nodup (h : g.Owned) :
    (g.stack ++ g.elements ++ g.freed.map Prod.fst).Nodup :=
  h.ledger.nodup_iff.mpr List.nodup_range

theorem Owned.lt_created (h : g.Owned) (hp : p ∈ g.stack ++ g.elements) : p < g.created :=
  List.mem_range.mp (h.ledger.mem_iff.mp (List.mem_append_left _ hp))

/-- A frame that is held is held once, and was not freed. -/
theorem Owned.count_eq_one (h : g.Owned) (hp : (g.heap p).isSome) :
    (g.stack ++ g.elements).count p = 1 ∧ p ∉ g.freed.map Prod.fst := by
  obtain ⟨hheld, -, hdisjoint⟩ := List.nodup_append'.mp h.nodup
  have hmem := (h.live p).mp hp
  exact ⟨List.count_eq_one_of_mem hheld hmem, hdisjoint hmem⟩

/-- A frame that was made and not freed is there. -/
theorem Owned.isSome_of_not_freed (h : g.Owned) (hp : p < g.created)
    (hfreed : p ∉ g.freed.map Prod.fst) : (g.heap p).isSome := by
  have hmem := h.ledger.mem_iff.mpr (List.mem_range.mpr hp)
  exact (h.live p).mpr ((List.mem_append.mp hmem).resolve_right hfreed)

theorem Owned.create (h : g.Owned) (frame : α) : (g.create frame).Owned := by
  constructor
  · have hmiddle : (g.stack ++ [g.created] ++ g.elements ++ g.freed.map Prod.fst).Perm
        (g.created :: (g.stack ++ g.elements ++ g.freed.map Prod.fst)) := by
      simp only [List.append_assoc, List.singleton_append]
      exact List.perm_middle
    rw [Frames.create, List.range_succ]
    exact hmiddle.trans ((h.ledger.cons _).trans (List.perm_append_singleton _ _).symm)
  · intro q
    have hlive := h.live q
    rw [Frames.create]
    dsimp only
    by_cases hq : q = g.created
    · rw [hq, Function.update_self]
      simp
    · rw [Function.update_of_ne hq, hlive]
      simp [hq]

theorem Owned.activate (h : g.Owned) : g.activate.Owned := by
  rw [Frames.activate]
  cases hlast : g.stack.getLast? with
  | none => exact h
  | some p =>
    have hstack := List.dropLast_append_getLast? p hlast
    have hmove : (g.stack.dropLast ++ p :: g.elements).Perm (g.stack ++ g.elements) := by
      rw [← hstack, List.dropLast_concat, List.append_assoc, List.singleton_append]
    constructor
    · exact (hmove.append_right _).trans h.ledger
    · intro q
      exact (h.live q).trans hmove.mem_iff.symm

theorem Owned.modify (h : g.Owned) (hp : (g.heap p).isSome) (frame : α) :
    (g.modify p frame).Owned := by
  refine ⟨h.ledger, ?_⟩
  intro q
  have hlive := h.live q
  rw [Frames.modify]
  dsimp only
  by_cases hq : q = p
  · rw [hq, Function.update_self]
    exact iff_of_true rfl ((h.live p).mp hp)
  · rw [Function.update_of_ne hq, hlive]

/-- The caller's frame goes to the front of the list and the last one comes out of it. -/
theorem reorder_perm {stack : List ℕ} {newElement : ℕ} (h : stack.getLast? = some newElement)
    (caller : ℕ) (callers : List ℕ) :
    ((reorder stack caller newElement).1 ++ (reorder stack caller newElement).2 :: callers).Perm
      (stack ++ caller :: callers) := by
  obtain ⟨front, rfl⟩ := List.getLast?_eq_some_iff.mp h
  have hmiddle : (front ++ [newElement] ++ caller :: callers).Perm
      (caller :: (front ++ [newElement] ++ callers)) := List.perm_middle
  have hnew : caller :: (front ++ [newElement] ++ callers) =
      (caller :: front) ++ newElement :: callers := by simp
  rw [reorder, List.dropLast_concat]
  exact (hnew ▸ hmiddle).symm

/-- Between the end of an activation and the return to its caller the frame is on the list or
gone. -/
theorem Owned.returnTo (h : ({ g with elements := rest } : Frames α).Owned) :
    (g.returnTo rest).Owned := by
  cases rest with
  | nil => exact h
  | cons caller callers =>
    simp only [Frames.returnTo]
    cases hlast : g.stack.getLast? with
    | none => exact h
    | some newElement =>
      have hmove := reorder_perm hlast caller callers
      constructor
      · exact (hmove.append_right _).trans h.ledger
      · intro q
        exact (h.live q).trans hmove.mem_iff.symm

theorem Owned.requeue (h : g.Owned) (helements : g.elements = p :: rest) :
    ({ g.requeue p with elements := rest } : Frames α).Owned := by
  have hmove : (g.stack ++ [p] ++ rest).Perm (g.stack ++ g.elements) := by
    rw [helements, List.append_assoc, List.singleton_append]
  constructor
  · exact (hmove.append_right _).trans h.ledger
  · intro q
    exact (h.live q).trans hmove.mem_iff.symm

theorem Owned.free (h : g.Owned) (helements : g.elements = p :: rest) (frame : α) :
    ({ g.free p frame with elements := rest } : Frames α).Owned := by
  have hmove : (g.stack ++ g.elements).Perm (p :: (g.stack ++ rest)) := by
    rw [helements]
    exact List.perm_middle
  have hnodup : (p :: (g.stack ++ rest)).Nodup :=
    hmove.nodup_iff.mp (List.nodup_append'.mp h.nodup).1
  constructor
  · rw [Frames.free]
    dsimp only
    rw [List.map_append, List.map_singleton, ← List.append_assoc]
    refine (List.perm_append_singleton _ _).trans ?_
    exact (hmove.symm.append_right _).trans h.ledger
  · intro q
    have hlive := h.live q
    rw [hmove.mem_iff, List.mem_cons] at hlive
    rw [Frames.free]
    dsimp only
    by_cases hq : q = p
    · rw [hq, Function.update_self]
      exact iff_of_false (by simp) (List.nodup_cons.mp hnodup).1
    · rw [Function.update_of_ne hq, hlive, or_iff_right hq]

end Frames
end Sisop

import Sisop.Collections

/-!
# The sorting loops end and keep the order of equals

`LoopsTo` is `while (!flag) { flag = true; ... }` with no bound on its rounds. A list is sorted
once all but one of its elements are in place, and the pass behind that one leaves the flag set.
-/

namespace Sisop

variable {α : Type*}

inductive LoopsTo (body : α → α × Bool) : α → α → Prop
  | stop {a b : α} : body a = (b, true) → LoopsTo body a b
  | again {a b c : α} : body a = (b, false) → LoopsTo body b c → LoopsTo body a c

theorem LoopsTo.unique {body : α → α × Bool} {a b c : α} (h : LoopsTo body a b)
    (h' : LoopsTo body a c) : b = c := by
  induction h with
  | stop hbody =>
    cases h' with
    | stop hbody' => exact congrArg Prod.fst (hbody.symm.trans hbody')
    | again hbody' => cases hbody.symm.trans hbody'
  | again hbody _ ih =>
    cases h' with
    | stop hbody' => cases hbody.symm.trans hbody'
    | again hbody' hrest =>
      cases hbody.symm.trans hbody'
      exact ih hrest

section Sorted

variable {greater : α → α → Bool} {exchange : List α → ℕ → List α} {ilimit : ℕ} {list : List α}

/-- On a sorted list a pass exchanges nothing. -/
theorem bubblePass_of_sorted (exchange : List α → ℕ → List α)
    (h : list.Pairwise fun a b => greater a b = false) (rounds i : ℕ) :
    bubblePass greater exchange rounds i list true = (list, true) := by
  induction rounds generalizing i with
  | zero => rfl
  | succ rounds ih =>
    have hkeep : (list[i]?.bind fun psImg1 =>
        list[i + 1]?.map (greater psImg1)).getD false = false := by
      by_cases hi : i + 1 < list.length
      · have hlt : i < list.length := Nat.lt_of_succ_lt hi
        rw [List.getElem?_eq_getElem hlt, List.getElem?_eq_getElem hi]
        exact List.pairwise_iff_getElem.mp h i (i + 1) hlt hi (Nat.lt_succ_self i)
      · rw [List.getElem?_eq_none (Nat.not_lt.mp hi)]
        cases list[i]? <;> rfl
    rw [bubblePass, hkeep]
    exact ih (i + 1)

theorem loopsTo_bubbleLoop_of_inPlace
    (hasymm : ∀ a b, greater a b = true → greater b a = false)
    (htrans : ∀ a b c, greater a b = false → greater b c = false → greater a c = false)
    (hexchange : SwapsNeighbours exchange ilimit) {fuel : ℕ} (hlength : list.length = ilimit + 1)
    (h : InPlace greater (fuel + 1) list) :
    LoopsTo (fun list => bubblePass greater exchange ilimit 0 list true) list
      (bubbleLoop greater exchange ilimit (fuel + 1) list) := by
  induction fuel generalizing list with
  | zero =>
    have hpass := bubblePass_of_sorted exchange (sorted_of_inPlace_one h) ilimit 0
    rw [bubbleLoop, hpass]
    exact .stop hpass
  | succ fuel ih =>
    obtain ⟨a, rest, rfl⟩ := List.exists_cons_of_length_eq_add_one hlength
    have hcarried := bubblePass_cons greater hexchange a rest true (Nat.succ.inj hlength)
    rcases hpass : bubblePass greater exchange ilimit 0 (a :: rest) true with ⟨list', flag⟩
    rw [bubbleLoop, hpass]
    rw [hpass] at hcarried
    cases flag with
    | true => exact .stop hpass
    | false =>
      obtain rfl : list' = carried greater a rest := hcarried
      exact .again hpass (ih ((carried_perm a rest).length_eq.trans hlength)
        (inPlace_carried hasymm htrans h))

theorem loopsTo_bubbleLoop (hasymm : ∀ a b, greater a b = true → greater b a = false)
    (htrans : ∀ a b c, greater a b = false → greater b c = false → greater a c = false)
    (hexchange : SwapsNeighbours exchange ilimit) {fuel : ℕ} (hlength : list.length = ilimit + 1)
    (hfuel : ilimit < fuel) :
    LoopsTo (fun list => bubblePass greater exchange ilimit 0 list true) list
      (bubbleLoop greater exchange ilimit fuel list) := by
  obtain ⟨fuel, rfl⟩ := Nat.exists_eq_add_of_lt (Nat.zero_lt_of_lt hfuel)
  rw [Nat.zero_add] at hfuel ⊢
  exact loopsTo_bubbleLoop_of_inPlace hasymm htrans hexchange hlength
    (inPlace_length list (by omega))

/-- The loop of `bubbleSort` ends in what the definition gives, whatever the length. -/
theorem loopsTo_bubbleSort (hasymm : ∀ a b, greater a b = true → greater b a = false)
    (htrans : ∀ a b c, greater a b = false → greater b c = false → greater a c = false)
    (list : List α) :
    LoopsTo (fun l => bubblePass greater (bubbleExchange · (list.length - 1)) (list.length - 1) 0 l
      true) list (bubbleSort greater list) := by
  rcases list with _ | ⟨a, list⟩
  · exact .stop rfl
  · exact loopsTo_bubbleLoop hasymm htrans (swapsNeighbours_bubbleExchange _) rfl
      (by rw [List.length_cons]; omega)

end Sorted

section Stable

variable {greater : α → α → Bool} {exchange : List α → ℕ → List α} {ilimit : ℕ} {k : α → Bool}

/-- Two elements of a class that the order does not tell apart are never exchanged. -/
theorem carried_filter (hk : ∀ a b, k a = true → k b = true → greater a b = false) (a : α)
    (list : List α) : (carried greater a list).filter k = (a :: list).filter k := by
  induction list generalizing a with
  | nil => rfl
  | cons b list ih =>
    rw [carried]
    split_ifs with hgreater
    · rw [List.filter_cons, ih a, List.filter_cons, List.filter_cons, List.filter_cons]
      have hnot : ¬ (k a = true ∧ k b = true) := by
        rintro ⟨ha, hb⟩
        rw [hk a b ha hb] at hgreater
        cases hgreater
      split_ifs with hb ha
      · exact absurd ⟨ha, hb⟩ hnot
      · rfl
      · rfl
      · rfl
    · rw [List.filter_cons, ih b, ← List.filter_cons]

theorem bubbleLoop_filter (hexchange : SwapsNeighbours exchange ilimit) {fuel : ℕ} {list : List α}
    (hlength : list.length = ilimit + 1)
    (hk : ∀ a b, k a = true → k b = true → greater a b = false) :
    (bubbleLoop greater exchange ilimit fuel list).filter k = list.filter k := by
  induction fuel generalizing list with
  | zero => rfl
  | succ fuel ih =>
    obtain ⟨a, rest, rfl⟩ := List.exists_cons_of_length_eq_add_one hlength
    have hcarried := bubblePass_cons greater hexchange a rest true (Nat.succ.inj hlength)
    rcases hpass : bubblePass greater exchange ilimit 0 (a :: rest) true with ⟨list', flag⟩
    rw [bubbleLoop, hpass]
    rw [hpass] at hcarried
    obtain rfl : list' = carried greater a rest := hcarried
    cases flag with
    | true => exact carried_filter hk a rest
    | false =>
      exact (ih ((carried_perm a rest).length_eq.trans hlength)).trans (carried_filter hk a rest)

theorem bubbleSort_filter (hk : ∀ a b, k a = true → k b = true → greater a b = false)
    (list : List α) : (bubbleSort greater list).filter k = list.filter k := by
  rcases list with _ | ⟨a, list⟩
  · rfl
  · exact bubbleLoop_filter (swapsNeighbours_bubbleExchange _) rfl hk

end Stable

end Sisop

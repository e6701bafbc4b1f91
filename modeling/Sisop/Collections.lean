import Sisop.Operations

/-!
# The lists of the commons library and the re-sorting of a list of images

`list_add_in_index` does nothing, and says nothing, when the list has no element at that index.
`bubblePass` is one round of the inner loop of `orderInsertPrioList` and `orderInsertSPNList`;
the flag tells whether it exchanged anything.
-/

namespace Sisop

variable {α : Type*}

def listAddInIndex (self : List α) (index : ℕ) (data : α) : List α :=
  if index < self.length then self.take index ++ data :: self.drop index else self

def bubbleExchange (list : List α) (ilimit i : ℕ) : List α :=
  match list[i]? with
  | none => list
  | some psImg1 =>
    if ilimit - i = 1 then list.eraseIdx i ++ [psImg1]
    else listAddInIndex (list.eraseIdx i) (i + 1) psImg1

def bubblePass (greater : α → α → Bool) (exchange : List α → ℕ → List α) :
    (rounds i : ℕ) → List α → Bool → List α × Bool
  | 0, _, list, flag => (list, flag)
  | rounds + 1, i, list, flag =>
    if (list[i]?.bind fun psImg1 => list[i + 1]?.map (greater psImg1)).getD false then
      bubblePass greater exchange rounds (i + 1) (exchange list i) false
    else bubblePass greater exchange rounds (i + 1) list flag

/-- The outer loop; it stops at a pass that leaves `flag` set. -/
def bubbleLoop (greater : α → α → Bool) (exchange : List α → ℕ → List α) (ilimit : ℕ) :
    (fuel : ℕ) → List α → List α
  | 0, list => list
  | fuel + 1, list =>
    let (list', flag) := bubblePass greater exchange ilimit 0 list true
    if flag then list' else bubbleLoop greater exchange ilimit fuel list'

def bubbleSort (greater : α → α → Bool) (list : List α) : List α :=
  bubbleLoop greater (bubbleExchange · (list.length - 1)) (list.length - 1) (list.length + 1) list

@[simp] theorem listAddInIndex_nil (index : ℕ) (data : α) : listAddInIndex [] index data = [] := rfl

theorem listAddInIndex_perm {self : List α} {index : ℕ} (h : index < self.length) (data : α) :
    (listAddInIndex self index data).Perm (data :: self) := by
  rw [listAddInIndex, if_pos h]
  refine List.perm_middle.trans ?_
  rw [List.take_append_drop]

theorem bubbleExchange_perm (list : List α) {ilimit i : ℕ} (h : ilimit + 1 ≤ list.length)
    (hi : i < ilimit) : (bubbleExchange list ilimit i).Perm list := by
  have hlt : i < list.length := by omega
  have hback : (list[i] :: list.eraseIdx i).Perm list := List.getElem_cons_eraseIdx_perm hlt
  rw [bubbleExchange, List.getElem?_eq_getElem hlt]
  dsimp only
  split_ifs with hlast
  · exact List.perm_append_singleton _ _ |>.trans hback
  · refine (listAddInIndex_perm ?_ _).trans hback
    rw [List.length_eraseIdx_of_lt hlt]
    omega

theorem bubblePass_perm (greater : α → α → Bool) {exchange : List α → ℕ → List α} {ilimit : ℕ}
    (hexchange : ∀ list i, ilimit + 1 ≤ list.length → i < ilimit → (exchange list i).Perm list)
    (rounds i : ℕ) (list : List α) (flag : Bool) (h : ilimit + 1 ≤ list.length)
    (hi : i + rounds ≤ ilimit) : (bubblePass greater exchange rounds i list flag).1.Perm list := by
  induction rounds generalizing i list flag with
  | zero => exact .refl _
  | succ rounds ih =>
    simp only [bubblePass]
    split_ifs with hgreater
    · have hperm := hexchange list i h (by omega)
      exact (ih _ _ _ (hperm.length_eq ▸ h) (by omega)).trans hperm
    · exact ih _ _ _ h (by omega)

theorem bubbleLoop_perm (greater : α → α → Bool) (exchange : List α → ℕ → List α) (ilimit : ℕ)
    (hexchange : ∀ list i, ilimit + 1 ≤ list.length → i < ilimit → (exchange list i).Perm list)
    (fuel : ℕ) (list : List α) (h : ilimit + 1 ≤ list.length) :
    (bubbleLoop greater exchange ilimit fuel list).Perm list := by
  induction fuel generalizing list with
  | zero => exact .refl _
  | succ fuel ih =>
    have hperm := bubblePass_perm greater hexchange ilimit 0 list true h (by omega)
    simp only [bubbleLoop]
    split_ifs with hflag
    · exact hperm
    · exact (ih _ (hperm.length_eq ▸ h)).trans hperm

theorem bubbleSort_perm (greater : α → α → Bool) (list : List α) :
    (bubbleSort greater list).Perm list := by
  rcases list with _ | ⟨x, xs⟩
  · rfl
  · exact bubbleLoop_perm greater _ _ (fun list i => bubbleExchange_perm list) _ _ (by simp)

/-- What a pass makes of `a` and the elements behind it: the greatest so far is carried along. -/
def carried (greater : α → α → Bool) : α → List α → List α
  | a, [] => [a]
  | a, b :: list => if greater a b then b :: carried greater a list else a :: carried greater b list

theorem bubbleExchange_append (front list : List α) (a b : α) :
    bubbleExchange (front ++ a :: b :: list) (front.length + (list.length + 1)) front.length =
      front ++ b :: a :: list := by
  have hget : (front ++ a :: b :: list)[front.length]? = some a := by simp
  have herase : (front ++ a :: b :: list).eraseIdx front.length = front ++ b :: list := by
    rw [List.eraseIdx_append_of_length_le le_rfl, Nat.sub_self]
    rfl
  rw [bubbleExchange, hget]
  dsimp only
  rw [herase]
  split_ifs with hlast
  · obtain rfl : list = [] := List.length_eq_zero_iff.mp (by omega)
    simp
  · have hlength : 0 < list.length := by omega
    have hlt : front.length + 1 < (front ++ b :: list).length := by
      rw [List.length_append, List.length_cons]
      omega
    rw [listAddInIndex, if_pos hlt, List.take_length_add_append, List.drop_length_add_append]
    simp

/-- On a list of `ilimit + 1` elements `exchange` swaps two neighbours. -/
def SwapsNeighbours (exchange : List α → ℕ → List α) (ilimit : ℕ) : Prop :=
  ∀ (front list : List α) (a b : α), ilimit = front.length + (list.length + 1) →
    exchange (front ++ a :: b :: list) front.length = front ++ b :: a :: list

theorem swapsNeighbours_bubbleExchange (ilimit : ℕ) :
    SwapsNeighbours (bubbleExchange (α := α) · ilimit) ilimit := by
  intro front list a b h
  subst h
  exact bubbleExchange_append front list a b

theorem bubblePass_append (greater : α → α → Bool) {exchange : List α → ℕ → List α} {ilimit : ℕ}
    (hexchange : SwapsNeighbours exchange ilimit) (front list : List α) (a : α) (flag : Bool)
    (h : ilimit = front.length + list.length) :
    (bubblePass greater exchange list.length front.length (front ++ a :: list) flag).1 =
      front ++ carried greater a list := by
  induction list generalizing front a flag with
  | nil => rfl
  | cons b list ih =>
    have hgreater : ((front ++ a :: b :: list)[front.length]?.bind fun psImg1 =>
        ((front ++ a :: b :: list)[front.length + 1]?).map (greater psImg1)) =
          some (greater a b) := by
      simp
    have hnext : ∀ c, ilimit = (front ++ [c]).length + list.length := by
      intro c
      rw [h, List.length_append, List.length_cons, List.length_singleton]
      omega
    rw [List.length_cons, bubblePass, hgreater, carried]
    simp only [Option.getD_some]
    split_ifs
    · rw [hexchange front list a b h]
      simpa using ih (front ++ [b]) a false (hnext b)
    · simpa using ih (front ++ [a]) b flag (hnext a)

/-- A whole pass. -/
theorem bubblePass_cons (greater : α → α → Bool) {exchange : List α → ℕ → List α} {ilimit : ℕ}
    (hexchange : SwapsNeighbours exchange ilimit) (a : α) (list : List α) (flag : Bool)
    (h : list.length = ilimit) :
    (bubblePass greater exchange ilimit 0 (a :: list) flag).1 = carried greater a list := by
  subst h
  exact bubblePass_append greater hexchange [] list a flag (Nat.zero_add _).symm

theorem bubblePass_flag (greater : α → α → Bool) (exchange : List α → ℕ → List α) (rounds i : ℕ)
    (list : List α) : (bubblePass greater exchange rounds i list false).2 = false := by
  induction rounds generalizing i list with
  | zero => rfl
  | succ rounds ih =>
    rw [bubblePass]
    split_ifs
    · exact ih _ _
    · exact ih _ _

/-- A pass that leaves the flag set has changed nothing. -/
theorem bubblePass_of_flag {greater : α → α → Bool} {exchange : List α → ℕ → List α}
    {rounds i : ℕ} {list : List α} (h : (bubblePass greater exchange rounds i list true).2 = true) :
    (bubblePass greater exchange rounds i list true).1 = list := by
  induction rounds generalizing i with
  | zero => rfl
  | succ rounds ih =>
    rw [bubblePass] at h ⊢
    split_ifs at h ⊢
    · rw [bubblePass_flag] at h
      cases h
    · exact ih h

theorem bubbleLoop_eq_iterate (greater : α → α → Bool) (exchange : List α → ℕ → List α)
    (ilimit fuel : ℕ) (list : List α) : bubbleLoop greater exchange ilimit fuel list =
      (fun list => (bubblePass greater exchange ilimit 0 list true).1)^[fuel] list := by
  induction fuel generalizing list with
  | zero => rfl
  | succ fuel ih =>
    rw [bubbleLoop, Function.iterate_succ_apply]
    dsimp only
    split_ifs with hflag
    · have hfixed := bubblePass_of_flag hflag
      rw [hfixed, Function.iterate_fixed hfixed]
    · exact ih _

section Sorted

variable {greater : α → α → Bool}

/-- The greatest element is carried to the end. -/
theorem carried_eq_append (hasymm : ∀ a b, greater a b = true → greater b a = false)
    (htrans : ∀ a b c, greater a b = false → greater b c = false → greater a c = false)
    (a : α) (list : List α) : ∃ next greatest, carried greater a list = next ++ [greatest] ∧
      ∀ b ∈ a :: list, greater b greatest = false := by
  induction list generalizing a with
  | nil =>
    refine ⟨[], a, rfl, fun b hb => ?_⟩
    rw [List.mem_singleton.mp hb]
    cases hself : greater a a with
    | false => rfl
    | true => exact (hself.symm.trans (hasymm a a hself))
  | cons b list ih =>
    rw [carried]
    split_ifs with hgreater
    · obtain ⟨next, greatest, heq, hall⟩ := ih a
      refine ⟨b :: next, greatest, by rw [heq]; rfl, fun c hc => ?_⟩
      rcases List.mem_cons.mp hc with rfl | hc
      · exact hall c List.mem_cons_self
      · rcases List.mem_cons.mp hc with rfl | hc
        · exact htrans _ _ _ (hasymm a c hgreater) (hall a List.mem_cons_self)
        · exact hall c (List.mem_cons_of_mem _ hc)
    · obtain ⟨next, greatest, heq, hall⟩ := ih b
      refine ⟨a :: next, greatest, by rw [heq]; rfl, fun c hc => ?_⟩
      rcases List.mem_cons.mp hc with rfl | hc
      · exact htrans _ _ _ (by simpa using hgreater) (hall b List.mem_cons_self)
      · exact hall c hc

theorem carried_of_sorted {a : α} {list : List α}
    (h : (a :: list).Pairwise fun b c => greater b c = false) :
    carried greater a list = a :: list := by
  induction list generalizing a with
  | nil => rfl
  | cons b list ih =>
    obtain ⟨hhead, htail⟩ := List.pairwise_cons.mp h
    rw [carried, if_neg (by simp [hhead b List.mem_cons_self]), ih htail]

/-- A pass does not touch the elements that are in place. -/
theorem carried_append {a : α} {front settled : List α}
    (hsettled : settled.Pairwise fun b c => greater b c = false)
    (h : ∀ b ∈ a :: front, ∀ c ∈ settled, greater b c = false) :
    carried greater a (front ++ settled) = carried greater a front ++ settled := by
  induction front generalizing a with
  | nil => exact carried_of_sorted (List.pairwise_cons.mpr ⟨h a List.mem_cons_self, hsettled⟩)
  | cons b front ih =>
    rw [List.cons_append, carried, carried]
    split_ifs
    · rw [ih fun c hc => h c ?_]
      · rfl
      · rcases List.mem_cons.mp hc with rfl | hc
        · exact List.mem_cons_self
        · exact List.mem_cons_of_mem _ (List.mem_cons_of_mem _ hc)
    · rw [ih fun c hc => h c (List.mem_cons_of_mem _ hc)]
      rfl

theorem carried_perm (a : α) (list : List α) : (carried greater a list).Perm (a :: list) := by
  induction list generalizing a with
  | nil => rfl
  | cons b list ih =>
    rw [carried]
    split_ifs
    · exact ((ih a).cons b).trans (.swap a b list)
    · exact (ih b).cons a

/-- All but the first `remaining` elements are in place. -/
def InPlace (greater : α → α → Bool) (remaining : ℕ) (list : List α) : Prop :=
  ∃ front settled, list = front ++ settled ∧ front.length ≤ remaining ∧
    settled.Pairwise (fun b c => greater b c = false) ∧
      ∀ b ∈ front, ∀ c ∈ settled, greater b c = false

theorem inPlace_carried (hasymm : ∀ a b, greater a b = true → greater b a = false)
    (htrans : ∀ a b c, greater a b = false → greater b c = false → greater a c = false)
    {remaining : ℕ} {a : α} {list : List α} (h : InPlace greater (remaining + 1) (a :: list)) :
    InPlace greater remaining (carried greater a list) := by
  obtain ⟨front, settled, heq, hlength, hsettled, hfront⟩ := h
  rcases front with _ | ⟨a', front⟩
  · obtain rfl : a :: list = settled := heq
    rw [carried_of_sorted hsettled]
    exact ⟨[], a :: list, rfl, Nat.zero_le _, hsettled, List.forall_mem_nil _⟩
  · rw [List.cons_append] at heq
    obtain ⟨rfl, rfl⟩ := List.cons.inj heq
    obtain ⟨next, greatest, hcarried, hall⟩ := carried_eq_append hasymm htrans a front
    have hperm : (carried greater a front).Perm (a :: front) := carried_perm a front
    rw [hcarried] at hperm
    have hmem : ∀ b ∈ next ++ [greatest], b ∈ a :: front := fun b hb => hperm.mem_iff.mp hb
    have hgreatest := hmem greatest (List.mem_append_right _ (List.mem_singleton_self _))
    have hlength' := hperm.length_eq
    rw [carried_append hsettled hfront, hcarried]
    refine ⟨next, greatest :: settled, by simp, ?_,
      List.pairwise_cons.mpr ⟨hfront greatest hgreatest, hsettled⟩, fun b hb c hc => ?_⟩
    · simp only [List.length_append, List.length_cons, List.length_nil] at hlength hlength'
      omega
    · have hb' := hmem b (List.mem_append_left _ hb)
      rcases List.mem_cons.mp hc with rfl | hc
      · exact hall b hb'
      · exact hfront b hb' c hc

theorem inPlace_iterate (hasymm : ∀ a b, greater a b = true → greater b a = false)
    (htrans : ∀ a b c, greater a b = false → greater b c = false → greater a c = false)
    {exchange : List α → ℕ → List α} {remaining fuel ilimit : ℕ} {list : List α}
    (hexchange : SwapsNeighbours exchange ilimit) (hlength : list.length = ilimit + 1)
    (h : InPlace greater (remaining + fuel) list) :
    InPlace greater remaining ((fun list =>
      (bubblePass greater exchange ilimit 0 list true).1)^[fuel] list) := by
  induction fuel generalizing list with
  | zero => exact h
  | succ fuel ih =>
    obtain ⟨a, rest, rfl⟩ := List.exists_cons_of_length_eq_add_one hlength
    rw [Function.iterate_succ_apply, bubblePass_cons greater hexchange a rest true
      (Nat.succ.inj hlength)]
    exact ih ((carried_perm a rest).length_eq.trans hlength) (inPlace_carried hasymm htrans h)

theorem inPlace_length (list : List α) {remaining : ℕ} (h : list.length ≤ remaining) :
    InPlace greater remaining list :=
  ⟨list, [], (List.append_nil list).symm, h, .nil, fun _ _ => List.forall_mem_nil _⟩

/-- With one element left there is nothing more to do. -/
theorem sorted_of_inPlace_one {list : List α} (h : InPlace greater 1 list) :
    list.Pairwise fun a b => greater a b = false := by
  obtain ⟨front, settled, rfl, hlength, hsettled, hfront⟩ := h
  rcases front with _ | ⟨a, _ | ⟨b, front⟩⟩
  · exact hsettled
  · exact List.pairwise_cons.mpr ⟨hfront a (List.mem_singleton_self a), hsettled⟩
  · simp at hlength

theorem bubbleLoop_sorted (hasymm : ∀ a b, greater a b = true → greater b a = false)
    (htrans : ∀ a b c, greater a b = false → greater b c = false → greater a c = false)
    {exchange : List α → ℕ → List α} {ilimit fuel : ℕ} {list : List α}
    (hexchange : SwapsNeighbours exchange ilimit) (hlength : list.length = ilimit + 1)
    (hfuel : ilimit ≤ fuel) :
    (bubbleLoop greater exchange ilimit fuel list).Pairwise fun a b => greater a b = false := by
  have hall : InPlace greater (1 + fuel) list := inPlace_length list (by omega)
  rw [bubbleLoop_eq_iterate]
  exact sorted_of_inPlace_one (inPlace_iterate hasymm htrans hexchange hlength hall)

theorem bubbleSort_sorted (hasymm : ∀ a b, greater a b = true → greater b a = false)
    (htrans : ∀ a b c, greater a b = false → greater b c = false → greater a c = false)
    (list : List α) : (bubbleSort greater list).Pairwise fun a b => greater a b = false := by
  rcases list with _ | ⟨a, list⟩
  · exact .nil
  · exact bubbleLoop_sorted hasymm htrans (swapsNeighbours_bubbleExchange _) rfl
      (by rw [List.length_cons]; omega)

end Sorted

example : bubbleSort (fun a b => decide (b < a)) [3, 1, 2, 1] = [1, 1, 2, 3] := by decide

end Sisop

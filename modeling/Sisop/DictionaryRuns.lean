import Sisop.DictionarySpecs

/-!
# Runs of dictionary operations

Seen from outside a dictionary is the list of what was put and not removed, in that order, of which
a lookup finds the first with the hash of its key. How large the table is and when it was resized
cannot be told, but for `dictionary_iterator`.
-/

namespace Sisop
namespace Dictionary

open Memory

variable {β : Type}

inductive DictionaryOp (β : Type) where
  | put (key : CString) (data : Option β)
  | get (key : CString)
  | hasKey (key : CString)
  | remove (key : CString)
  | size
  | isEmpty
  | clean

inductive DictionaryResult (β : Type) where
  | nothing
  | data (x : Option β)
  | truth (b : Bool)
  | number (n : ℤ)
  deriving DecidableEq, Repr

def exec (malloc : Allocator (Cell (THashElement β))) (rounds : ℕ) :
    DictionaryOp β → Program (DictionaryMemory β) (DictionaryResult β)
  | .put key data => (dictionaryPut malloc rounds key data).giving fun _ => .nothing
  | .get key => (dictionaryGet rounds key).giving .data
  | .hasKey key => (dictionaryHasKey rounds key).giving .truth
  | .remove key => (dictionaryRemove rounds key).giving .data
  | .size => dictionarySize.giving .number
  | .isEmpty => dictionaryIsEmpty.giving .truth
  | .clean => (dictionaryClean rounds).giving fun _ => .nothing

def execAll (malloc : Allocator (Cell (THashElement β))) (rounds : ℕ) :
    List (DictionaryOp β) → Program (DictionaryMemory β) (List (DictionaryResult β))
  | [] => pure []
  | op :: ops => do
    let r ← exec malloc rounds op
    let rs ← execAll malloc rounds ops
    return r :: rs

/-- What was put and not removed, and what `elements_amount` says. -/
structure Multimap (β : Type) where
  entries : List (THashElement β)
  amount : ℤ

def Multimap.empty : Multimap β := ⟨[], 0⟩

def DictionaryOp.effect (d : Multimap β) :
    DictionaryOp β → DictionaryResult β × Multimap β
  | .put key data => (.nothing, ⟨d.entries ++ [⟨key, dictionaryHash key, data⟩], d.amount + 1⟩)
  | .get key => (.data ((withHash (dictionaryHash key) d.entries).bind THashElement.data), d)
  | .hasKey key => (.truth (withHash (dictionaryHash key) d.entries).isSome, d)
  | .remove key =>
    let x := (withHash (dictionaryHash key) d.entries).bind THashElement.data
    (.data x, ⟨withoutHash (dictionaryHash key) d.entries,
      if x.isSome then d.amount - 1 else d.amount⟩)
  | .size => (.number d.amount, d)
  | .isEmpty => (.truth (d.amount == 0), d)
  | .clean => (.nothing, .empty)

def effects : List (DictionaryOp β) → Multimap β → List (DictionaryResult β) × Multimap β
  | [], d => ([], d)
  | op :: ops, d =>
    let rest := effects ops (op.effect d).2
    ((op.effect d).1 :: rest.1, rest.2)

def created : DictionaryMemory β := ⟨Heap.empty, dictionaryCreate⟩

def Represents (m : DictionaryMemory β) (d : Multimap β) : Prop :=
  m.root.elements_amount = d.amount ∧ ∃ place, Stored m d.entries place

variable {malloc : Allocator (Cell (THashElement β))} {m m' : DictionaryMemory β} {d : Multimap β}
  {rounds : ℕ} {entries : List (THashElement β)} {place : ℕ → List (ℕ × THashElement β)}

theorem represents_created : Represents (created : DictionaryMemory β) .empty := by
  refine ⟨rfl, fun _ => [], Tiled.empty, ?_, fun _ => rfl, Nat.succ_pos 19, ?_,
    List.forall_mem_nil _⟩
  · rfl
  · simp [used, created, dictionaryCreate]

theorem dictionaryRemove_ends (h : Represents m d) (key : CString)
    (hrounds : d.entries.length < rounds) :
    Ends (dictionaryRemove rounds key) m fun x m' =>
      x = (withHash (dictionaryHash key) d.entries).bind THashElement.data ∧
        Represents m' ((DictionaryOp.remove key).effect d).2 := by
  obtain ⟨hamount, place, hstored⟩ := h
  refine (dictionaryRemoveElement_ends hstored key hrounds).bind fun x m₁ hm₁ => ?_
  obtain ⟨rfl, hamount₁, place₁, hstored₁⟩ := hm₁
  rw [DictionaryOp.effect]
  cases (withHash (dictionaryHash key) d.entries).bind THashElement.data with
  | none => exact Ends.pure ⟨rfl, hamount₁.trans hamount, place₁, hstored₁⟩
  | some x =>
    refine (addToAmount_ends (-1) hstored₁).bind fun _ m' hm' => Ends.pure ⟨rfl, ?_, hm'.2⟩
    simp [hm'.1, hamount₁, hamount, sub_eq_add_neg]

theorem exec_ends (malloc : Allocator (Cell (THashElement β))) (op : DictionaryOp β)
    (h : Represents m d) (hrounds : 2 * d.entries.length + 2 < rounds) :
    Ends (exec malloc rounds op) m fun r m' =>
      r = (op.effect d).1 ∧ Represents m' (op.effect d).2 := by
  obtain ⟨hamount, place, hstored⟩ := id h
  cases op with
  | put key data =>
    refine (dictionaryPut_ends malloc key data hstored hrounds).giving fun _ m' hm' => ?_
    exact ⟨rfl, by rw [hm'.1, hamount]; rfl, hm'.2⟩
  | get key =>
    exact .of_ok (giving_of_ok (dictionaryGet_of_stored hstored key (by omega))) ⟨rfl, h⟩
  | hasKey key =>
    exact .of_ok (giving_of_ok (dictionaryHasKey_of_stored hstored key (by omega))) ⟨rfl, h⟩
  | remove key =>
    refine (dictionaryRemove_ends h key (by omega)).giving fun x m' hx => ?_
    exact ⟨by rw [hx.1]; rfl, hx.2⟩
  | size => exact .of_ok (giving_of_ok rfl) ⟨congrArg DictionaryResult.number hamount, h⟩
  | isEmpty =>
    exact .of_ok (giving_of_ok rfl) ⟨congrArg (fun n => DictionaryResult.truth (n == 0)) hamount, h⟩
  | clean =>
    refine (dictionaryClean_ends hstored (by omega)).giving fun _ m' hm' => ?_
    exact ⟨rfl, hm'.1, hm'.2⟩

theorem length_effect (op : DictionaryOp β) (d : Multimap β) :
    (op.effect d).2.entries.length ≤ d.entries.length + 1 := by
  cases op with
  | put key data => simp [DictionaryOp.effect]
  | remove key => exact (List.eraseP_sublist.length_le).trans (Nat.le_succ _)
  | clean => exact Nat.zero_le _
  | get | hasKey | size | isEmpty => exact Nat.le_succ _

theorem execAll_ends (malloc : Allocator (Cell (THashElement β))) (ops : List (DictionaryOp β))
    (h : Represents m d) (hrounds : 2 * (d.entries.length + ops.length) + 2 < rounds) :
    Ends (execAll malloc rounds ops) m fun rs m' =>
      rs = (effects ops d).1 ∧ Represents m' (effects ops d).2 := by
  induction ops generalizing m d with
  | nil => exact Ends.pure ⟨rfl, h⟩
  | cons op ops ih =>
    have hlength := length_effect op d
    rw [List.length_cons] at hrounds
    refine (exec_ends malloc op h (by omega)).bind fun r m₁ hm₁ => ?_
    refine (ih hm₁.2 (by omega)).bind fun rs m' hm' => Ends.pure ⟨?_, hm'.2⟩
    rw [hm₁.1, hm'.1]
    rfl

/-- Whatever is done with a dictionary and wherever `malloc` puts its elements, every operation
returns what the plain list says, and every element is in its bucket. -/
theorem dictionary_refines (malloc : Allocator (Cell (THashElement β)))
    (ops : List (DictionaryOp β)) : ∃ enough, ∀ rounds, enough ≤ rounds →
      Ends (execAll malloc rounds ops) created fun rs m' =>
        rs = (effects ops .empty).1 ∧ Represents m' (effects ops .empty).2 :=
  ⟨2 * (0 + ops.length) + 3, fun _ hrounds =>
    execAll_ends malloc ops represents_created (Nat.lt_of_succ_le hrounds)⟩

section Iterator

variable {a : ℕ} {c : Cell (THashElement β)}

/-- The second element of a bucket is never reached. -/
theorem iterateChain_endless (hcell : m.cells.cell a = some c) (hnext : c.next ≠ none)
    (rounds : ℕ) : iterateChain rounds a m = .error .running := by
  induction rounds with
  | zero => rfl
  | succ rounds ih =>
    rw [iterateChain, bind_of_ok (deref_of_cell hcell), if_neg hnext, bind_of_error ih]

def callsFor (cells : List (ℕ × THashElement β)) : List (CString × ℕ) :=
  cells.map fun cell => (cell.2.key, cell.1)

theorem iterateTable_of_singles (hstored : Stored m entries place) (indices : List ℕ)
    (hsingle : ∀ i ∈ indices, (place i).length ≤ 1) (hrounds : 0 < rounds) :
    iterateTable rounds (indices.map fun i => first (place i)) m =
      .ok (indices.flatMap fun i => callsFor (place i), m) := by
  obtain ⟨rounds, rfl⟩ := Nat.exists_eq_add_one_of_ne_zero (Nat.ne_zero_of_lt hrounds)
  induction indices with
  | nil => rfl
  | cons i indices ih =>
    have hrest := ih fun k hk => hsingle k (List.mem_cons_of_mem _ hk)
    have hlength := hsingle i List.mem_cons_self
    have hchain := hstored.tiled.chain i
    rw [List.map_cons, List.flatMap_cons]
    rcases hplace : place i with _ | ⟨⟨a, d⟩, _ | ⟨cell, cells⟩⟩
    · exact hrest
    · rw [hplace] at hchain
      obtain ⟨-, next, hcell, rfl⟩ := hchain
      rw [first_cons, iterateTable, iterateChain]
      have hone : iterateChain (rounds + 1) a m = .ok ([(d.key, a)], m) := by
        rw [iterateChain, bind_of_ok (deref_of_cell hcell), if_pos rfl]
        rfl
      exact (bind_of_ok hone).trans ((bind_of_ok hrest).trans rfl)
    · rw [hplace] at hlength
      simp at hlength

theorem iterateTable_endless (hstored : Stored m entries place) (indices : List ℕ)
    (hmany : ∃ i ∈ indices, 1 < (place i).length) (rounds : ℕ) :
    iterateTable rounds (indices.map fun i => first (place i)) m = .error .running := by
  induction indices with
  | nil =>
    obtain ⟨i, hi, -⟩ := hmany
    cases hi
  | cons i indices ih =>
    have hchain := hstored.tiled.chain i
    rw [List.map_cons]
    rcases hplace : place i with _ | ⟨⟨a, d⟩, _ | ⟨cell, cells⟩⟩
    · obtain ⟨k, hk, hlength⟩ := hmany
      rcases List.mem_cons.mp hk with rfl | hk
      · rw [hplace] at hlength
        cases hlength
      · exact ih ⟨k, hk, hlength⟩
    · obtain ⟨k, hk, hlength⟩ := hmany
      rcases List.mem_cons.mp hk with rfl | hk
      · rw [hplace] at hlength
        simp at hlength
      · rw [hplace] at hchain
        obtain ⟨-, next, hcell, rfl⟩ := hchain
        cases rounds with
        | zero => exact bind_of_error rfl
        | succ rounds =>
          have hone : iterateChain (rounds + 1) a m = .ok ([(d.key, a)], m) := by
            rw [iterateChain, bind_of_ok (deref_of_cell hcell), if_pos rfl]
            rfl
          exact (bind_of_ok hone).trans (bind_of_error (ih ⟨k, hk, hlength⟩))
    · rw [hplace] at hchain
      obtain ⟨-, next, hcell, hrest⟩ := hchain
      obtain ⟨rfl, -⟩ := hrest
      exact bind_of_error (iterateChain_endless hcell (Option.some_ne_none _) rounds)

theorem dictionaryIterator_ends_iff (hstored : Stored m entries place) (hrounds : 0 < rounds) :
    ((∀ i, (inBucket m.root.table_max_size i entries).length ≤ 1) →
      Ends (dictionaryIterator rounds) m fun calls m' => m' = m ∧ calls.map Prod.fst =
        ((List.range m.root.table_max_size).flatMap fun i =>
          inBucket m.root.table_max_size i entries).map THashElement.key) ∧
    ((∃ i, 1 < (inBucket m.root.table_max_size i entries).length) →
      ∀ rounds', dictionaryIterator rounds' m = .error .running) := by
  have hlength : ∀ i, (place i).length = (inBucket m.root.table_max_size i entries).length := by
    intro i
    rw [← hstored.bucket, length_contents]
  constructor
  · intro hsingle
    have hcalls := iterateTable_of_singles hstored (List.range m.root.table_max_size)
      (fun i _ => (hlength i).trans_le (hsingle i)) hrounds
    rw [← hstored.table] at hcalls
    refine Ends.bind_of_ok (record_apply m) (Ends.of_ok hcalls ⟨rfl, ?_⟩)
    rw [List.map_flatMap, List.map_flatMap]
    simp only [← hstored.bucket, callsFor, contents, List.map_map]
    rfl
  · rintro ⟨i, hi⟩ rounds'
    rw [← hlength] at hi
    have hrange : i < m.root.table_max_size := by
      by_contra hout
      rw [hstored.outside (Nat.le_of_not_lt hout)] at hi
      cases hi
    rw [dictionaryIterator, bind_of_ok (record_apply m), hstored.table]
    exact iterateTable_endless hstored _ ⟨i, List.mem_range.mpr hrange, hi⟩ rounds'

/-- After any operations `dictionary_iterator` calls its closure for each element, bucket by bucket,
if no bucket has two; with two in one it calls it for the first of them without end. -/
theorem iterator_after_run (malloc : Allocator (Cell (THashElement β)))
    (ops : List (DictionaryOp β)) : ∃ enough, ∀ rounds, enough ≤ rounds → ∃ rs m,
      execAll malloc rounds ops created = .ok (rs, m) ∧
      ((∀ i, (inBucket m.root.table_max_size i (effects ops .empty).2.entries).length ≤ 1) →
        Ends (dictionaryIterator rounds) m fun calls m' => m' = m ∧ calls.map Prod.fst =
          ((List.range m.root.table_max_size).flatMap fun i =>
            inBucket m.root.table_max_size i (effects ops .empty).2.entries).map
              THashElement.key) ∧
      ((∃ i, 1 < (inBucket m.root.table_max_size i (effects ops .empty).2.entries).length) →
        ∀ rounds', dictionaryIterator rounds' m = .error .running) := by
  obtain ⟨enough, hends⟩ := dictionary_refines malloc ops
  refine ⟨enough + 1, fun rounds hrounds => ?_⟩
  obtain ⟨rs, m, hexec, -, -, place, hstored⟩ := hends rounds (by omega)
  exact ⟨rs, m, hexec, dictionaryIterator_ends_iff hstored (by omega)⟩

end Iterator

end Dictionary
end Sisop

import Sisop.Chains
import Sisop.Collections

/-!
# The lists and queues of the commons library, cell by cell

A `t_list` has the pointer to its first element and the number of its elements; it is known by its
address. A null `data` is `none`. `while` loops and `list_iterate` take the rounds they may run. The
closures `list_iterate` is called with by the library itself are the only ones that change lists.
-/

namespace Sisop

structure TList where
  head : Pointer
  elements_count : ℤ
  deriving DecidableEq, Repr

abbrev ListMemory (α : Type) := Memory (Option α) (Heap TList)

structure Malloc (α : Type) where
  element : Allocator (Cell (Option α))
  list : Allocator TList

/-- Each at the first address never used. -/
def Malloc.top (α : Type) : Malloc α := ⟨.top, .top⟩

namespace Commons

open Memory

variable {α : Type} (malloc : Malloc α)

def listAt (self : ℕ) : Program (ListMemory α) TList :=
  .step fun m => (m.root.cell self).map fun r => (r, m)

def setList (self : ℕ) (f : TList → TList) : Program (ListMemory α) Unit :=
  .step fun m => (m.root.cell self).map fun r => ((), { m with root := m.root.write self (f r) })

def listCreate : Program (ListMemory α) ℕ :=
  .step fun m => some (malloc.list.address m.root,
    { m with root := m.root.write (malloc.list.address m.root) ⟨none, 0⟩ })

def listCreateElement (data : Option α) : Program (ListMemory α) Pointer :=
  allocate malloc.element data

def listLinkElement (previous next : Pointer) : Program (ListMemory α) Unit :=
  match previous with
  | none => pure ()
  | some a => modify (some a) fun c => { c with next }

def nextElements : (rounds : ℕ) → Pointer → Program (ListMemory α) Pointer
  | 0, element => pure element
  | rounds + 1, element => do
    let c ← deref element
    nextElements rounds c.next

def listGetElement (self : ℕ) (index : ℤ) : Program (ListMemory α) Pointer := do
  let list ← listAt self
  if index < list.elements_count ∧ 0 ≤ index then nextElements index.toNat list.head else pure none

/-- `self->elements_count++`, or `--`. -/
def addToCount (self : ℕ) (n : ℤ) : Program (ListMemory α) Unit :=
  setList self fun list => { list with elements_count := list.elements_count + n }

/-- Where `list_add` puts its new element. -/
def listAppend (self : ℕ) (newElement : Pointer) : Program (ListMemory α) Unit := do
  let list ← listAt self
  if list.elements_count = 0 then setList self fun list => { list with head := newElement }
  else do
    let last ← listGetElement self (list.elements_count - 1)
    listLinkElement last newElement

def listAdd (self : ℕ) (data : Option α) : Program (ListMemory α) ℤ := do
  let newElement ← listCreateElement malloc data
  listAppend self newElement
  addToCount self 1
  let list ← listAt self
  return list.elements_count - 1

def dataOf (element : Pointer) : Program (ListMemory α) (Option α) :=
  match element with
  | none => pure none
  | some a => do
    let c ← deref (some a)
    return c.data

def listGet (self : ℕ) (index : ℤ) : Program (ListMemory α) (Option α) := do
  let element ← listGetElement self index
  dataOf element

def listAddInIndex (self : ℕ) (index : ℤ) (data : Option α) : Program (ListMemory α) Unit := do
  let list ← listAt self
  if index < list.elements_count ∧ 0 ≤ index then do
    let newElement ← listCreateElement malloc data
    if index = 0 then do
      listLinkElement newElement list.head
      setList self fun list => { list with head := newElement }
      addToCount self 1
    else do
      let next ← listGetElement self index
      let previous ← listGetElement self (index - 1)
      listLinkElement previous newElement
      listLinkElement newElement next
      addToCount self 1
  else pure ()

def listReplace (self : ℕ) (index : ℤ) (data : Option α) : Program (ListMemory α) (Option α) := do
  let element ← listGetElement self index
  match element with
  | none => return none
  | some a => do
    let c ← deref (some a)
    modify (some a) fun c => { c with data }
    return c.data

def findFrom (condition : Option α → Bool) :
    (rounds : ℕ) → Pointer → ℤ → Program (ListMemory α) (Pointer × ℤ)
  | 0, _, _ => .stop .running
  | _ + 1, none, position => pure (none, position)
  | rounds + 1, some a, position => do
    let c ← deref (some a)
    if condition c.data then return (some a, position)
    else findFrom condition rounds c.next (position + 1)

def listFindElement (rounds self : ℕ) (condition : Option α → Bool) :
    Program (ListMemory α) (Pointer × ℤ) := do
  let list ← listAt self
  findFrom condition rounds list.head 0

def listFind (rounds self : ℕ) (condition : Option α → Bool) :
    Program (ListMemory α) (Option α) := do
  let found ← listFindElement rounds self condition
  dataOf found.1

def listFindIndex (rounds self : ℕ) (condition : Option α → Bool) :
    Program (ListMemory α) ℤ := do
  let found ← listFindElement rounds self condition
  return found.2

/-- What `list_remove` does to the list; `next` is what the element at `index` points to. -/
def listUnlink (self : ℕ) (index : ℤ) (next : Pointer) : Program (ListMemory α) Unit :=
  if index = 0 then setList self fun list => { list with head := next }
  else do
    let previous ← listGetElement self (index - 1)
    listLinkElement previous next

def listRemove (self : ℕ) (index : ℤ) : Program (ListMemory α) (Option α) := do
  let list ← listAt self
  if list.head = none then return none
  else do
    let auxElement ← listGetElement self index
    let c ← deref auxElement
    listUnlink self index c.next
    addToCount self (-1)
    release auxElement
    return c.data

def listRemoveByCondition (rounds self : ℕ) (condition : Option α → Bool) :
    Program (ListMemory α) (Option α) := do
  let found ← listFindElement rounds self condition
  match found.1 with
  | none => return none
  | some _ => listRemove self found.2

def listSize (self : ℕ) : Program (ListMemory α) ℤ := do
  let list ← listAt self
  return list.elements_count

def listIsEmpty (self : ℕ) : Program (ListMemory α) Bool := do
  let size ← listSize self
  return size == 0

/-- The loop of `list_iterate`; the element is looked at again behind the closure. -/
def iterateFrom (closure : Option α → Program (ListMemory α) Unit) :
    (rounds : ℕ) → Pointer → Program (ListMemory α) Unit
  | 0, _ => .stop .running
  | _ + 1, none => pure ()
  | rounds + 1, some a => do
    let c ← deref (some a)
    closure c.data
    let c ← deref (some a)
    iterateFrom closure rounds c.next

def listIterate (rounds self : ℕ) (closure : Option α → Program (ListMemory α) Unit) :
    Program (ListMemory α) Unit := do
  let list ← listAt self
  iterateFrom closure rounds list.head

def cleanFrom (self : ℕ) : (rounds : ℕ) → Program (ListMemory α) Unit
  | 0 => .stop .running
  | rounds + 1 => do
    let list ← listAt self
    match list.head with
    | none => pure ()
    | some a => do
      let c ← deref (some a)
      setList self fun list => { list with head := c.next }
      release (some a)
      cleanFrom self rounds

def listClean (rounds self : ℕ) : Program (ListMemory α) Unit := do
  cleanFrom self rounds
  setList self fun list => { list with elements_count := 0 }

def freeList (self : ℕ) : Program (ListMemory α) Unit :=
  .step fun m => (m.root.cell self).map fun _ => ((), { m with root := m.root.free self })

def listDestroy (rounds self : ℕ) : Program (ListMemory α) Unit := do
  listClean rounds self
  freeList self

/-- `list_add` as the last statement of a closure. -/
def addInList (self : ℕ) (data : Option α) : Program (ListMemory α) Unit := do
  let _ ← listAdd malloc self data
  return ()

def listAddAll (rounds self other : ℕ) : Program (ListMemory α) Unit :=
  listIterate rounds other (addInList malloc self)

/-! A `t_queue` is a pointer to a list that never changes; `self` is that list. -/

def queuePush (self : ℕ) (element : Option α) : Program (ListMemory α) Unit :=
  addInList malloc self element

def queuePop (self : ℕ) : Program (ListMemory α) (Option α) := listRemove self 0

def queuePeek (self : ℕ) : Program (ListMemory α) (Option α) := listGet self 0

def queueSize (self : ℕ) : Program (ListMemory α) ℤ := listSize self

/-- The loop of `list_take` from `i` on, `remaining` times. -/
def takeFrom (self sublist : ℕ) : (remaining : ℕ) → (i : ℤ) → Program (ListMemory α) Unit
  | 0, _ => pure ()
  | remaining + 1, i => do
    let element ← listGet self i
    addInList malloc sublist element
    takeFrom self sublist remaining (i + 1)

def listTake (self : ℕ) (count : ℤ) : Program (ListMemory α) ℕ := do
  let sublist ← listCreate malloc
  takeFrom malloc self sublist count.toNat 0
  return sublist

def takeAndRemoveFrom (self sublist : ℕ) : (remaining : ℕ) → Program (ListMemory α) Unit
  | 0 => pure ()
  | remaining + 1 => do
    let element ← listRemove self 0
    addInList malloc sublist element
    takeAndRemoveFrom self sublist remaining

def listTakeAndRemove (self : ℕ) (count : ℤ) : Program (ListMemory α) ℕ := do
  let sublist ← listCreate malloc
  takeAndRemoveFrom malloc self sublist count.toNat
  return sublist

def listFilter (rounds self : ℕ) (condition : Option α → Bool) : Program (ListMemory α) ℕ := do
  let filtered ← listCreate malloc
  listIterate rounds self fun element =>
    if condition element then addInList malloc filtered element else pure ()
  return filtered

def listMap (rounds self : ℕ) (transformer : Option α → Option α) :
    Program (ListMemory α) ℕ := do
  let mapped ← listCreate malloc
  listIterate rounds self fun element => addInList malloc mapped (transformer element)
  return mapped

end Commons

end Sisop

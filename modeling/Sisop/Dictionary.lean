import Sisop.Chains
import Sisop.CString

/-!
# The dictionary of the commons library, cell by cell

The elements of a bucket are chained. Only hashes are compared: two keys with one hash are the same
key. `while` loops take the rounds they may run. The data of an element is freed by a function the
dictionary is given; here it is a value, `none` where the pointer is null.
-/

namespace Sisop

structure THashElement (β : Type) where
  key : CString
  hashcode : UInt32
  data : Option β
  deriving DecidableEq, Repr

structure TDictionary where
  elements : List Pointer
  table_max_size : ℕ
  table_current_size : ℤ
  elements_amount : ℤ
  deriving DecidableEq, Repr

abbrev DictionaryMemory (β : Type) := Memory (THashElement β) TDictionary

namespace Dictionary

open Memory

variable {β : Type}

def hashByte (hash : UInt32) (c : UInt8) : UInt32 :=
  let hash := hash + c.toUInt32
  let hash := hash + (hash <<< 10)
  hash ^^^ (hash >>> 6)

def dictionaryHash (key : CString) : UInt32 :=
  let hash := key.foldl hashByte 0
  let hash := hash + (hash <<< 3)
  let hash := hash ^^^ (hash >>> 11)
  hash + (hash <<< 15)

def bucketOf (hash : UInt32) (size : ℕ) : ℕ := hash.toNat % size

def dictionaryCreate : TDictionary where
  elements := List.replicate 20 none
  table_max_size := 20
  table_current_size := 0
  elements_amount := 0

def record : Program (DictionaryMemory β) TDictionary := .step fun m => some (m.root, m)

def setRecord (f : TDictionary → TDictionary) : Program (DictionaryMemory β) Unit :=
  .step fun m => some ((), { m with root := f m.root })

def addToSize (n : ℤ) : Program (DictionaryMemory β) Unit :=
  setRecord fun self => { self with table_current_size := self.table_current_size + n }

def addToAmount (n : ℤ) : Program (DictionaryMemory β) Unit :=
  setRecord fun self => { self with elements_amount := self.elements_amount + n }

def readTable (table : List Pointer) (index : ℕ) : Program (DictionaryMemory β) Pointer :=
  .step fun m => table[index]?.map fun element => (element, m)

def setElement (index : ℕ) (element : Pointer) : Program (DictionaryMemory β) Unit :=
  setRecord fun self => { self with elements := self.elements.set index element }

/-- `while (element->next != NULL)`, and then `element->next = new_element`. -/
def linkLast (new_element : Pointer) : (rounds element : ℕ) → Program (DictionaryMemory β) Unit
  | 0, _ => .stop .running
  | rounds + 1, element => do
    let c ← deref (some element)
    match c.next with
    | none => modify (some element) fun c => { c with next := new_element }
    | some next => linkLast new_element rounds next

/-- Where `dictionary_resize` puts an element of the old table. -/
def placeElement (rounds : ℕ) (new_table : List Pointer) (new_index element : ℕ) :
    Program (DictionaryMemory β) (List Pointer) := do
  let new_element ← readTable new_table new_index
  match new_element with
  | none => do
    addToSize 1
    return new_table.set new_index (some element)
  | some head => do
    linkLast (some element) rounds head
    return new_table

/-- One bucket of the old table; `next` is read only behind the link. -/
def moveChain (new_max_size : ℕ) :
    (rounds : ℕ) → List Pointer → Pointer → Program (DictionaryMemory β) (List Pointer)
  | 0, _, _ => .stop .running
  | _ + 1, new_table, none => pure new_table
  | rounds + 1, new_table, some old_element => do
    let c ← deref (some old_element)
    let new_table ←
      placeElement rounds new_table (bucketOf c.data.hashcode new_max_size) old_element
    let c ← deref (some old_element)
    modify (some old_element) fun c => { c with next := none }
    moveChain new_max_size rounds new_table c.next

def moveTable (new_max_size rounds : ℕ) :
    (old_table new_table : List Pointer) → Program (DictionaryMemory β) (List Pointer)
  | [], new_table => pure new_table
  | old_element :: old_table, new_table => do
    let new_table ← moveChain new_max_size rounds new_table old_element
    moveTable new_max_size rounds old_table new_table

def dictionaryResize (rounds new_max_size : ℕ) : Program (DictionaryMemory β) Unit := do
  let self ← record
  setRecord fun self => { self with table_current_size := 0 }
  let new_table ←
    moveTable new_max_size rounds self.elements (List.replicate new_max_size none)
  setRecord fun self => { self with elements := new_table, table_max_size := new_max_size }

def putFirst (rounds index : ℕ) (new_element : Pointer) : Program (DictionaryMemory β) Unit := do
  setElement index new_element
  addToSize 1
  let self ← record
  if self.table_max_size ≤ self.table_current_size then
    dictionaryResize rounds (self.table_max_size * 2)
  else pure ()

def dictionaryPut (malloc : Allocator (Cell (THashElement β))) (rounds : ℕ) (key : CString)
    (data : Option β) : Program (DictionaryMemory β) Unit := do
  let self ← record
  let key_hash := dictionaryHash key
  let index := bucketOf key_hash self.table_max_size
  let new_element ← allocate malloc ⟨key, key_hash, data⟩
  let element ← readTable self.elements index
  match element with
  | none => putFirst rounds index new_element
  | some head => linkLast new_element rounds head
  addToAmount 1

def findHash (key_hash : UInt32) : (rounds : ℕ) → Pointer → Program (DictionaryMemory β) Pointer
  | 0, _ => .stop .running
  | _ + 1, none => pure none
  | rounds + 1, some element => do
    let c ← deref (some element)
    if c.data.hashcode = key_hash then return some element
    else findHash key_hash rounds c.next

def dictionaryGetElement (rounds : ℕ) (key : CString) : Program (DictionaryMemory β) Pointer := do
  let self ← record
  let key_hash := dictionaryHash key
  let element ← readTable self.elements (bucketOf key_hash self.table_max_size)
  findHash key_hash rounds element

def dictionaryGet (rounds : ℕ) (key : CString) : Program (DictionaryMemory β) (Option β) := do
  let element ← dictionaryGetElement rounds key
  match element with
  | none => return none
  | some a => do
    let c ← deref (some a)
    return c.data.data

def dictionaryHasKey (rounds : ℕ) (key : CString) : Program (DictionaryMemory β) Bool := do
  let element ← dictionaryGetElement rounds key
  return element.isSome

/-- The loop of `dictionary_remove_element`, behind the first element. -/
def removeBehind (key_hash : UInt32) :
    (rounds element : ℕ) → Program (DictionaryMemory β) (Option β)
  | 0, _ => .stop .running
  | rounds + 1, element => do
    let c ← deref (some element)
    match c.next with
    | none => return none
    | some next => do
      let aux ← deref (some next)
      if aux.data.hashcode = key_hash then do
        modify (some element) fun c => { c with next := aux.next }
        release (some next)
        return aux.data.data
      else removeBehind key_hash rounds next

def removeFirst (index element : ℕ) (c : Cell (THashElement β)) :
    Program (DictionaryMemory β) (Option β) := do
  setElement index c.next
  if c.next = none then addToSize (-1) else pure ()
  release (some element)
  return c.data.data

def dictionaryRemoveElement (rounds : ℕ) (key : CString) :
    Program (DictionaryMemory β) (Option β) := do
  let self ← record
  let key_hash := dictionaryHash key
  let index := bucketOf key_hash self.table_max_size
  let element ← readTable self.elements index
  match element with
  | none => return none
  | some a => do
    let c ← deref (some a)
    if c.data.hashcode = key_hash then removeFirst index a c
    else removeBehind key_hash rounds a

def dictionaryRemove (rounds : ℕ) (key : CString) : Program (DictionaryMemory β) (Option β) := do
  let data ← dictionaryRemoveElement rounds key
  match data with
  | none => return none
  | some x => do
    addToAmount (-1)
    return some x

/-- One bucket of `dictionary_iterator`: `element` never moves on. The result is the calls that the
closure gets; it is taken to leave the dictionary alone. -/
def iterateChain : (rounds element : ℕ) → Program (DictionaryMemory β) (List (CString × ℕ))
  | 0, _ => .stop .running
  | rounds + 1, element => do
    let c ← deref (some element)
    if c.next = none then return [(c.data.key, element)]
    else do
      let calls ← iterateChain rounds element
      return (c.data.key, element) :: calls

def iterateTable (rounds : ℕ) :
    (table : List Pointer) → Program (DictionaryMemory β) (List (CString × ℕ))
  | [] => pure []
  | none :: table => iterateTable rounds table
  | some element :: table => do
    let calls ← iterateChain rounds element
    let calls' ← iterateTable rounds table
    return calls ++ calls'

def dictionaryIterator (rounds : ℕ) : Program (DictionaryMemory β) (List (CString × ℕ)) := do
  let self ← record
  iterateTable rounds self.elements

def cleanChain : (rounds : ℕ) → Pointer → Program (DictionaryMemory β) Unit
  | 0, _ => .stop .running
  | _ + 1, none => pure ()
  | rounds + 1, some element => do
    let c ← deref (some element)
    release (some element)
    cleanChain rounds c.next

/-- The loop of `dictionary_clean` over the table, from `index` on. -/
def cleanTable (rounds : ℕ) : (remaining index : ℕ) → Program (DictionaryMemory β) Unit
  | 0, _ => pure ()
  | remaining + 1, index => do
    let self ← record
    let element ← readTable self.elements index
    match element with
    | none => cleanTable rounds remaining (index + 1)
    | some a => do
      cleanChain rounds (some a)
      setElement index none
      cleanTable rounds remaining (index + 1)

def dictionaryClean (rounds : ℕ) : Program (DictionaryMemory β) Unit := do
  let self ← record
  cleanTable rounds self.table_max_size 0
  setRecord fun self => { self with table_current_size := 0, elements_amount := 0 }

def dictionarySize : Program (DictionaryMemory β) ℤ := do
  let self ← record
  return self.elements_amount

def dictionaryIsEmpty : Program (DictionaryMemory β) Bool := do
  let self ← record
  return self.elements_amount == 0

end Dictionary
end Sisop

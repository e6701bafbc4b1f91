import Sisop.WireRoundTrip

/-!
# Reading frames from a stream socket

`recv` hands over what has arrived of the bytes not yet consumed, never more than asked; an empty
answer stands for a result that is zero or negative. The second argument of a reader gives how
many unread bytes have arrived at its peek and at its `recv`. A reader peeks the three bytes of
`t_header`, allocates what they announce and receives once. Less may arrive than either asks for.
`readStream` has no result when it comes to a byte nobody wrote; `Stale.readStream` goes on with
the one that stood there before.
-/

namespace Sisop

def recv (asked arrived : ℕ) (net : List UInt8) : List UInt8 := net.take (min asked arrived)

inductive Received (α : Type) where
  | ERROR
  | stream (data : α)
  deriving DecidableEq

/-- The common text of `readStream` and `readStreamPri`: what the caller gets and what stays
unread. -/
def readInto {α : Type} (header : Block UInt8) (malloc : ℕ → Block UInt8)
    (decode : Block UInt8 → Option α) (arrived : ℕ × ℕ) (net : List UInt8) :
    Option (Received α × List UInt8) :=
  let peeked := recv 3 arrived.1 net
  if peeked = [] then some (.ERROR, net)
  else do
    let header ← header.store 0 peeked
    let lo ← header.get 1
    let hi ← header.get 2
    let length := value16 lo hi
    let received := recv length arrived.2 net
    if received = [] then some (.ERROR, net)
    else do
      let stream ← (malloc length).store 0 received
      let data ← decode stream
      return (.stream data, net.drop received.length)

def readWith {α : Type} (decode : Block UInt8 → Option α) (arrived : ℕ × ℕ) (net : List UInt8) :
    Option (Received α × List UInt8) :=
  readInto (Block.malloc 3) Block.malloc decode arrived net

def readStream (arrived : ℕ × ℕ) (net : List UInt8) :
    Option (Received TDataStream × List UInt8) := readWith deserialization arrived net

def readStreamPri (arrived : ℕ × ℕ) (net : List UInt8) :
    Option (Received (TDataStream × Int32) × List UInt8) :=
  readWith deserializationPri arrived net

/-- The bytes that stand in `header` and in the allocated buffer before anything is received. -/
structure Stale where
  header : ℕ → UInt8
  buffer : ℕ → UInt8

namespace Stale

def zeros : Stale := ⟨fun _ => 0, fun _ => 0⟩

def readWith {α : Type} (stale : Stale) (decode : Block UInt8 → Option α) (arrived : ℕ × ℕ)
    (net : List UInt8) : Option (Received α × List UInt8) :=
  readInto (Block.holding stale.header 3) (Block.holding stale.buffer) decode arrived net

def readStream (stale : Stale) (arrived : ℕ × ℕ) (net : List UInt8) :
    Option (Received TDataStream × List UInt8) := stale.readWith deserialization arrived net

def readStreamPri (stale : Stale) (arrived : ℕ × ℕ) (net : List UInt8) :
    Option (Received (TDataStream × Int32) × List UInt8) :=
  stale.readWith deserializationPri arrived net

end Stale

/-- `len = strlen(data) + 1; code = malloc(len); memmove(code, data, len)` of `LTSconex`. -/
def copyScript (data : List UInt8) : Option (List UInt8) := do
  let n ← strlen data
  let len := uint16 (n + 1)
  let code ← (Block.malloc len).store 0 (data.take len)
  Block.contents code

/-- A peek that gets less than a header leaves `header.length` partly indeterminate. -/
theorem readWith_short_peek {α : Type} (decode : Block UInt8 → Option α) (arrived : ℕ × ℕ)
    (net : List UInt8) (hne : recv 3 arrived.1 net ≠ []) (h : (recv 3 arrived.1 net).length < 3) :
    readWith decode arrived net = none := by
  have hstore : (Block.malloc 3).store 0 (recv 3 arrived.1 net) =
      some (Block.filledTo (recv 3 arrived.1 net) (3 - (recv 3 arrived.1 net).length)) :=
    Block.store_malloc _ _ (by omega)
  have hget (i : ℕ) := Block.get_filledTo (recv 3 arrived.1 net)
    (3 - (recv 3 arrived.1 net).length) i
  simp only [readWith, readInto]
  rw [if_neg hne, bind_of_eq_some hstore]
  by_cases h2 : 1 < (recv 3 arrived.1 net).length
  · rw [bind_of_eq_some ((hget 1).trans (List.getElem?_eq_getElem h2)),
      bind_of_eq_none ((hget 2).trans (List.getElem?_eq_none (by omega)))]
  · rw [bind_of_eq_none ((hget 1).trans (List.getElem?_eq_none (by omega)))]

/-- With a whole header the reader allocates and receives the announced length. -/
theorem readWith_header {α : Type} (decode : Block UInt8 → Option α) (arrived : ℕ × ℕ)
    (type lo hi : UInt8) (rest : List UInt8) (h : 3 ≤ arrived.1) (received : List UInt8)
    (hr : recv (value16 lo hi) arrived.2 (type :: lo :: hi :: rest) = received) :
    readWith decode arrived (type :: lo :: hi :: rest) =
      if received = [] then some (.ERROR, type :: lo :: hi :: rest)
      else (decode (Block.filledTo received (value16 lo hi - received.length))).map
        (fun data => (.stream data, (type :: lo :: hi :: rest).drop received.length)) := by
  have hpeek : recv 3 arrived.1 (type :: lo :: hi :: rest) = [type, lo, hi] := by
    rw [recv, Nat.min_eq_left h]
    rfl
  have hstore : (Block.malloc 3).store 0 [type, lo, hi] =
      some (Block.filledTo [type, lo, hi] 0) := Block.store_malloc _ _ (Nat.le_refl _)
  have hget (i : ℕ) := Block.get_filledTo [type, lo, hi] 0 i
  have hle : received.length ≤ value16 lo hi := by
    rw [← hr, recv, List.length_take]
    omega
  have hbody : (Block.malloc (value16 lo hi)).store 0 received =
      some (Block.filledTo received (value16 lo hi - received.length)) :=
    Block.store_malloc _ _ hle
  simp only [readWith, readInto]
  rw [hpeek, if_neg (List.cons_ne_nil _ _), bind_of_eq_some hstore, bind_of_eq_some (hget 1),
    bind_of_eq_some (hget 2), hr]
  by_cases hne : received = []
  · rw [if_pos hne, if_pos hne]
  · rw [if_neg hne, if_neg hne, bind_of_eq_some hbody]
    exact (Option.map_eq_bind ..).symm

/-- A frame that has arrived whole is decoded as it is, and what came behind it stays unread. -/
theorem readInto_whole {α : Type} {header : Block UInt8} {malloc : ℕ → Block UInt8}
    (hheader : header.length = 3) (hmalloc : ∀ n, (malloc n).length = n)
    (decode : Block UInt8 → Option α) {arrived : ℕ × ℕ} (type : UInt8) {lo hi : UInt8}
    {body : List UInt8} (hlength : value16 lo hi = body.length + 3) (hpeek : 3 ≤ arrived.1)
    (hrecv : body.length + 3 ≤ arrived.2) (tail : List UInt8) :
    readInto header malloc decode arrived (type :: lo :: hi :: body ++ tail) =
      (decode (Block.filledTo (type :: lo :: hi :: body) 0)).map
        (fun data => (.stream data, tail)) := by
  have hpeeked : recv 3 arrived.1 (type :: lo :: hi :: body ++ tail) = [type, lo, hi] := by
    rw [recv, Nat.min_eq_left hpeek]
    rfl
  have hreceived : recv (value16 lo hi) arrived.2 (type :: lo :: hi :: body ++ tail) =
      type :: lo :: hi :: body := by
    rw [recv, hlength, Nat.min_eq_left hrecv]
    exact List.take_left' (List.length_cons ..)
  have hget (i : ℕ) := Block.get_filledTo [type, lo, hi] 0 i
  have hdrop : (type :: lo :: hi :: body ++ tail).drop (type :: lo :: hi :: body).length = tail :=
    List.drop_left
  simp only [readInto]
  rw [hpeeked, if_neg (List.cons_ne_nil _ _), bind_of_eq_some (Block.store_whole hheader),
    bind_of_eq_some (hget 1), bind_of_eq_some (hget 2), hreceived, if_neg (List.cons_ne_nil _ _),
    bind_of_eq_some (Block.store_whole ((hmalloc _).trans hlength)), hdrop]
  exact (Option.map_eq_bind ..).symm

theorem Stale.readWith_whole {α : Type} (stale : Stale) (decode : Block UInt8 → Option α)
    {arrived : ℕ × ℕ} (type : UInt8) {lo hi : UInt8} {body : List UInt8}
    (hlength : value16 lo hi = body.length + 3) (hpeek : 3 ≤ arrived.1)
    (hrecv : body.length + 3 ≤ arrived.2) (tail : List UInt8) :
    stale.readWith decode arrived (type :: lo :: hi :: body ++ tail) =
      (decode (Block.filledTo (type :: lo :: hi :: body) 0)).map
        (fun data => (.stream data, tail)) :=
  readInto_whole (Block.length_holding _ _) (Block.length_holding _) decode type hlength hpeek
    hrecv tail

/-- Whatever follows a header, `readStream` takes it for the rest of a frame of that type. -/
theorem Stale.readStream_header (stale : Stale) {arrived : ℕ × ℕ} (type : UInt8) {lo hi : UInt8}
    (rest : List UInt8) (hlength : 3 ≤ value16 lo hi) (hpeek : 3 ≤ arrived.1)
    (hrecv : 3 ≤ arrived.2) : ∃ data unread,
      stale.readStream arrived (type :: lo :: hi :: rest) =
        some (.stream ⟨type, data⟩, unread) := by
  obtain ⟨k, hk⟩ : ∃ k, min (value16 lo hi) arrived.2 = k + 3 :=
    ⟨min (value16 lo hi) arrived.2 - 3, by omega⟩
  have hpeeked : recv 3 arrived.1 (type :: lo :: hi :: rest) = [type, lo, hi] := by
    rw [recv, Nat.min_eq_left hpeek]
    rfl
  have hreceived : recv (value16 lo hi) arrived.2 (type :: lo :: hi :: rest) =
      type :: lo :: hi :: rest.take k := by
    rw [recv, hk]
    rfl
  have hget (i : ℕ) := Block.get_filledTo [type, lo, hi] 0 i
  have hle : (type :: lo :: hi :: rest.take k).length ≤ value16 lo hi := by
    simp only [List.length_cons, List.length_take]
    omega
  obtain ⟨tail, htail⟩ : ∃ tail, tail = ((List.range (value16 lo hi)).map stale.buffer).drop
      (type :: lo :: hi :: rest.take k).length := ⟨_, rfl⟩
  have hstore : (Block.holding stale.buffer (value16 lo hi)).store 0
      (type :: lo :: hi :: rest.take k) =
        some (Block.filledTo (type :: lo :: hi :: (rest.take k ++ tail)) 0) := by
    rw [htail]
    exact Block.store_holding _ hle
  have hdecode := deserialization_filledTo type lo hi (rest.take k ++ tail) 0 _ rfl
  have hlt := value16_lt lo hi
  rw [if_pos (by
    rw [List.length_append, htail, List.length_drop, List.length_map, List.length_range, uint16Sub]
    simp only [List.length_cons] at hle ⊢
    omega)] at hdecode
  have hheader : (Block.holding stale.header 3).store 0 [type, lo, hi] =
      some (Block.filledTo [type, lo, hi] 0) := Block.store_whole (Block.length_holding _ _)
  refine ⟨(rest.take k ++ tail).take (uint16Sub (value16 lo hi) (1 + 2)),
    (type :: lo :: hi :: rest).drop (type :: lo :: hi :: rest.take k).length, ?_⟩
  simp only [Stale.readStream, Stale.readWith, readInto]
  rw [hpeeked, if_neg (List.cons_ne_nil _ _), bind_of_eq_some hheader, bind_of_eq_some (hget 1),
    bind_of_eq_some (hget 2), hreceived, if_neg (List.cons_ne_nil _ _), bind_of_eq_some hstore,
    bind_of_eq_some hdecode]
  rfl

end Sisop

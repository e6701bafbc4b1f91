import Sisop.CString
import Sisop.Memory

/-!
# The two wire formats

`serialization` and `deserialization` are the same text in both programs; `serializationPri` is
the encoder of PI and `deserializationPri` the decoder of PP. Lengths live in `uint16_t`
variables, offsets in `uint32_t` ones. A run that touches memory outside a buffer, or reads a
byte nobody wrote, has no result.
-/

namespace Sisop

def uint16 (n : ℕ) : ℕ := n % 2 ^ 16

/-- `length -= k` in a `uint16_t`. -/
def uint16Sub (length k : ℕ) : ℕ := (length + (2 ^ 16 - k)) % 2 ^ 16

/-- `t_data_stream`; `data` is the block the pointer refers to. -/
structure TDataStream where
  type : UInt8
  data : List UInt8
  deriving DecidableEq, Repr

structure TStream where
  length : ℕ
  data : Block UInt8

def littleEndian16 (n : ℕ) : List UInt8 := [UInt8.ofNat n, UInt8.ofNat (n / 2 ^ 8)]

def value16 (lo hi : UInt8) : ℕ := lo.toNat + 2 ^ 8 * hi.toNat

def littleEndian32 (p : Int32) : List UInt8 :=
  let n := p.toUInt32.toNat
  [UInt8.ofNat n, UInt8.ofNat (n / 2 ^ 8), UInt8.ofNat (n / 2 ^ 16), UInt8.ofNat (n / 2 ^ 24)]

def value32 (a b c d : UInt8) : Int32 :=
  (UInt32.ofNat (a.toNat + 2 ^ 8 * b.toNat + 2 ^ 16 * c.toNat + 2 ^ 24 * d.toNat)).toInt32

def serialization (datos : TDataStream) : Option TStream := do
  let n ← strlen datos.data
  let length := uint16 (1 + 2 + n + 1)
  let data := Block.malloc length
  let data ← data.store 0 [datos.type]
  let data ← data.store 1 (littleEndian16 length)
  let data ← data.store 3 (datos.data.take (n + 1))
  return ⟨uint16 (3 + (n + 1)), data⟩

def serializationPri (datos : TDataStream) (priority : Int32) : Option TStream := do
  let n ← strlen datos.data
  let length := uint16 (1 + 2 + 4 + n + 1)
  let data := Block.malloc length
  let data ← data.store 0 [datos.type]
  let data ← data.store 1 (littleEndian16 length)
  let data ← data.store 3 (littleEndian32 priority)
  let data ← data.store 7 (datos.data.take (n + 1))
  return ⟨uint16 (7 + (n + 1)), data⟩

def deserialization (stream : Block UInt8) : Option TDataStream := do
  let type ← stream.get 0
  let lo ← stream.get 1
  let hi ← stream.get 2
  let length := uint16Sub (value16 lo hi) (1 + 2)
  let data ← stream.load 3 length
  return ⟨type, data⟩

def deserializationPri (stream : Block UInt8) : Option (TDataStream × Int32) := do
  let type ← stream.get 0
  let lo ← stream.get 1
  let hi ← stream.get 2
  let a ← stream.get 3
  let b ← stream.get 4
  let c ← stream.get 5
  let d ← stream.get 6
  let length := uint16Sub (value16 lo hi) (1 + 2 + 4)
  let data ← stream.load 7 length
  return (⟨type, data⟩, value32 a b c d)

def frame (type : UInt8) (payload : List UInt8) : List UInt8 :=
  type :: littleEndian16 (3 + payload.length) ++ payload

def framePri (type : UInt8) (priority : Int32) (payload : List UInt8) : List UInt8 :=
  type :: littleEndian16 (7 + payload.length) ++ littleEndian32 priority ++ payload

@[simp] theorem length_frame (type : UInt8) (payload : List UInt8) :
    (frame type payload).length = 3 + payload.length := by
  simp [frame, littleEndian16]
  omega

@[simp] theorem length_framePri (type : UInt8) (priority : Int32) (payload : List UInt8) :
    (framePri type priority payload).length = 7 + payload.length := by
  simp [framePri, littleEndian16, littleEndian32]
  omega

theorem uint16_of_lt {n : ℕ} (h : n < 2 ^ 16) : uint16 n = n := Nat.mod_eq_of_lt h

theorem uint16_lt (n : ℕ) : uint16 n < 2 ^ 16 := Nat.mod_lt _ (by decide)

theorem value16_littleEndian16 {n : ℕ} (h : n < 2 ^ 16) :
    value16 (UInt8.ofNat n) (UInt8.ofNat (n / 2 ^ 8)) = n := by
  simp only [value16, UInt8.toNat_ofNat']
  omega

theorem value16_lt (lo hi : UInt8) : value16 lo hi < 2 ^ 16 := by
  have hl := lo.toNat_lt
  have hh := hi.toNat_lt
  simp only [value16]
  omega

theorem value32_littleEndian32 (p : Int32) :
    value32 (UInt8.ofNat p.toUInt32.toNat) (UInt8.ofNat (p.toUInt32.toNat / 2 ^ 8))
      (UInt8.ofNat (p.toUInt32.toNat / 2 ^ 16)) (UInt8.ofNat (p.toUInt32.toNat / 2 ^ 24)) = p := by
  have hlt := p.toUInt32.toNat_lt
  have hsum : ∀ n < 2 ^ 32, n % 2 ^ 8 + 2 ^ 8 * (n / 2 ^ 8 % 2 ^ 8) +
      2 ^ 16 * (n / 2 ^ 16 % 2 ^ 8) + 2 ^ 24 * (n / 2 ^ 24 % 2 ^ 8) = n := by
    intro n hn
    omega
  simp only [value32, UInt8.toNat_ofNat', hsum _ hlt, UInt32.ofNat_toNat]
  simp

theorem deserialization_eq_load (type lo hi : UInt8) (rest : List UInt8) (k : ℕ) :
    deserialization (Block.filledTo (type :: lo :: hi :: rest) k) =
      ((Block.filledTo (type :: lo :: hi :: rest) k).load 3
        (uint16Sub (value16 lo hi) (1 + 2))).map (fun data => ⟨type, data⟩) := by
  have hget (i : ℕ) := Block.get_filledTo (type :: lo :: hi :: rest) k i
  rw [deserialization, bind_of_eq_some (hget 0), bind_of_eq_some (hget 1),
    bind_of_eq_some (hget 2)]
  exact (Option.map_eq_bind ..).symm

theorem deserializationPri_eq_load (type lo hi a b c d : UInt8) (rest : List UInt8) (k : ℕ) :
    deserializationPri (Block.filledTo (type :: lo :: hi :: a :: b :: c :: d :: rest) k) =
      ((Block.filledTo (type :: lo :: hi :: a :: b :: c :: d :: rest) k).load 7
        (uint16Sub (value16 lo hi) (1 + 2 + 4))).map
          (fun data => (⟨type, data⟩, value32 a b c d)) := by
  have hget (i : ℕ) := Block.get_filledTo (type :: lo :: hi :: a :: b :: c :: d :: rest) k i
  rw [deserializationPri, bind_of_eq_some (hget 0), bind_of_eq_some (hget 1),
    bind_of_eq_some (hget 2), bind_of_eq_some (hget 3), bind_of_eq_some (hget 4),
    bind_of_eq_some (hget 5), bind_of_eq_some (hget 6)]
  exact (Option.map_eq_bind ..).symm

/-- A decoder sees the type and the length of its buffer, then takes what the length promises. -/
theorem deserialization_filledTo (type lo hi : UInt8) (rest : List UInt8) (k n : ℕ)
    (hn : uint16Sub (value16 lo hi) (1 + 2) = n) :
    deserialization (Block.filledTo (type :: lo :: hi :: rest) k) =
      if n ≤ rest.length then some ⟨type, rest.take n⟩ else none := by
  rw [deserialization_eq_load, hn]
  by_cases h : n ≤ rest.length
  · rw [if_pos h, Block.load_filledTo _ _ _ _ (by simp only [List.length_cons]; omega)]
    rfl
  · rw [if_neg h, Block.load_filledTo_eq_none _ _ _ _ (by simp only [List.length_cons]; omega)
      (by simp only [List.length_cons]; omega)]
    rfl

theorem deserializationPri_filledTo (type lo hi a b c d : UInt8) (rest : List UInt8) (k n : ℕ)
    (hn : uint16Sub (value16 lo hi) (1 + 2 + 4) = n) :
    deserializationPri (Block.filledTo (type :: lo :: hi :: a :: b :: c :: d :: rest) k) =
      if n ≤ rest.length then some (⟨type, rest.take n⟩, value32 a b c d) else none := by
  rw [deserializationPri_eq_load, hn]
  by_cases h : n ≤ rest.length
  · rw [if_pos h, Block.load_filledTo _ _ _ _ (by simp only [List.length_cons]; omega)]
    rfl
  · rw [if_neg h, Block.load_filledTo_eq_none _ _ _ _ (by simp only [List.length_cons]; omega)
      (by simp only [List.length_cons]; omega)]
    rfl

/-- A buffer that holds less than a header cannot be decoded. -/
theorem deserialization_short {xs : List UInt8} (h : xs.length < 3) (k : ℕ) :
    deserialization (Block.filledTo xs k) = none := by
  have hnone : (Block.filledTo xs k).get 2 = none := by
    rw [Block.get_filledTo, List.getElem?_eq_none (by omega)]
  rw [deserialization]
  simp only [Option.bind_eq_bind, Option.bind_eq_none_iff]
  intro type _ lo _ hi hhi
  rw [hnone] at hhi
  cases hhi

theorem deserializationPri_short {xs : List UInt8} (h : xs.length < 7) (k : ℕ) :
    deserializationPri (Block.filledTo xs k) = none := by
  have hnone : (Block.filledTo xs k).get 6 = none := by
    rw [Block.get_filledTo, List.getElem?_eq_none (by omega)]
  rw [deserializationPri]
  simp only [Option.bind_eq_bind, Option.bind_eq_none_iff]
  intro type _ lo _ hi _ a _ b _ c _ d hd
  rw [hnone] at hd
  cases hd

theorem deserialization_frame (type : UInt8) (payload : List UInt8)
    (h : 3 + payload.length < 2 ^ 16) (k : ℕ) :
    deserialization (Block.filledTo (frame type payload) k) = some ⟨type, payload⟩ := by
  have hn : uint16Sub (3 + payload.length) (1 + 2) = payload.length := by
    rw [uint16Sub]
    omega
  rw [frame, littleEndian16, List.cons_append, List.cons_append, List.cons_append,
    List.nil_append, deserialization_filledTo _ _ _ _ _ payload.length, if_pos (Nat.le_refl _),
    List.take_length]
  rw [value16_littleEndian16 h, hn]

theorem deserializationPri_framePri (type : UInt8) (priority : Int32) (payload : List UInt8)
    (h : 7 + payload.length < 2 ^ 16) (k : ℕ) :
    deserializationPri (Block.filledTo (framePri type priority payload) k) =
      some (⟨type, payload⟩, priority) := by
  have hn : uint16Sub (7 + payload.length) (1 + 2 + 4) = payload.length := by
    rw [uint16Sub]
    omega
  rw [framePri, littleEndian16, littleEndian32]
  simp only [List.cons_append, List.nil_append]
  rw [deserializationPri_filledTo _ _ _ _ _ _ _ _ _ payload.length, if_pos (Nat.le_refl _),
    List.take_length, value32_littleEndian32]
  rw [value16_littleEndian16 h, hn]

end Sisop

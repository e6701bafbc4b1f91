import Sisop.Serialization

/-!
# Encoding followed by decoding

A payload travels together with its terminating NUL. The frame length lives in a `uint16_t`, the
payload length is not bounded, so the buffer an encoder allocates is as long as the frame modulo
`2 ^ 16`. While the frame fits, both formats round-trip exactly; from the first payload that does
not fit on, the last `memcpy` of the encoder leaves the buffer.
-/

namespace Sisop

def announced (bytes : List UInt8) : Option ℕ := do
  let lo ← bytes[1]?
  let hi ← bytes[2]?
  return value16 lo hi

/-- The encoder filled the buffer it allocated, and both lengths it gives are the number of bytes
it wrote. -/
structure WritesExactly (s : TStream) (written : List UInt8) : Prop where
  contents_eq : s.data.contents = some written
  length_eq : s.length = written.length
  announced_eq : announced written = some written.length

def RoundTrips (m : TDataStream) : Prop :=
  ∃ s written, serialization m = some s ∧ WritesExactly s written ∧
    deserialization s.data = some m

def RoundTripsPri (m : TDataStream) (priority : Int32) : Prop :=
  ∃ s written, serializationPri m priority = some s ∧ WritesExactly s written ∧
    deserializationPri s.data = some (m, priority)

def payloadBlock (s : CString) : List UInt8 := s ++ [0]

@[simp] theorem length_payloadBlock (s : CString) : (payloadBlock s).length = s.length + 1 := by
  simp [payloadBlock]

theorem strlen_payloadBlock {s : CString} (hs : 0 ∉ s) :
    strlen (payloadBlock s) = some s.length := strlen_append_zero s hs []

theorem take_payloadBlock (s : CString) :
    (payloadBlock s).take (s.length + 1) = payloadBlock s := by
  rw [← length_payloadBlock, List.take_length]

theorem serialization_fits (type : UInt8) {s : CString} (hs : 0 ∉ s)
    (h : s.length + 4 < 2 ^ 16) :
    serialization ⟨type, payloadBlock s⟩ =
      some ⟨3 + (s.length + 1), Block.filledTo (frame type (payloadBlock s)) 0⟩ := by
  have hlen : uint16 (1 + 2 + s.length + 1) = s.length + 4 := by
    rw [uint16_of_lt] <;> omega
  have htype : (Block.filledTo [] (s.length + 4)).store 0 [type] =
      some (Block.filledTo [type] (s.length + 3)) := Block.store_filledTo _ _ _ _ _ rfl rfl
  have hlength : (Block.filledTo [type] (s.length + 3)).store 1 (littleEndian16 (s.length + 4)) =
      some (Block.filledTo (type :: littleEndian16 (s.length + 4)) (s.length + 1)) :=
    Block.store_filledTo _ _ _ _ _ rfl rfl
  have hdata : (Block.filledTo (type :: littleEndian16 (s.length + 4)) (s.length + 1)).store 3
      (payloadBlock s) =
      some (Block.filledTo (type :: littleEndian16 (s.length + 4) ++ payloadBlock s) 0) :=
    Block.store_filledTo _ _ _ _ _ rfl (by rw [length_payloadBlock, Nat.zero_add])
  have hann : uint16 (3 + (s.length + 1)) = 3 + (s.length + 1) := uint16_of_lt (by omega)
  rw [serialization, bind_of_eq_some (strlen_payloadBlock hs)]
  simp only [hlen, take_payloadBlock, Block.malloc_eq_filledTo]
  rw [bind_of_eq_some htype, bind_of_eq_some hlength, bind_of_eq_some hdata, hann, frame,
    length_payloadBlock, show 3 + (s.length + 1) = s.length + 4 by omega]
  rfl

/-- From the first length that wraps on, the payload no longer fits in the buffer. -/
theorem serialization_overflows (type : UInt8) {s : CString} (hs : 0 ∉ s)
    (h : 2 ^ 16 ≤ s.length + 4) : serialization ⟨type, payloadBlock s⟩ = none := by
  have hlt := uint16_lt (1 + 2 + s.length + 1)
  rw [serialization, bind_of_eq_some (strlen_payloadBlock hs)]
  simp only [take_payloadBlock, Option.bind_eq_bind, Option.bind_eq_none_iff]
  intro b₀ h₀ b₁ h₁ b₂ h₂
  have hb : b₁.length = uint16 (1 + 2 + s.length + 1) := by
    rw [Block.length_store h₁, Block.length_store h₀, Block.malloc, List.length_replicate]
  rw [Block.store_eq_none (by rw [hb, length_payloadBlock]; omega)] at h₂
  cases h₂

theorem serializationPri_fits (type : UInt8) (priority : Int32) {s : CString} (hs : 0 ∉ s)
    (h : s.length + 8 < 2 ^ 16) :
    serializationPri ⟨type, payloadBlock s⟩ priority =
      some ⟨7 + (s.length + 1), Block.filledTo (framePri type priority (payloadBlock s)) 0⟩ := by
  have hlen : uint16 (1 + 2 + 4 + s.length + 1) = s.length + 8 := by
    rw [uint16_of_lt] <;> omega
  have htype : (Block.filledTo [] (s.length + 8)).store 0 [type] =
      some (Block.filledTo [type] (s.length + 7)) := Block.store_filledTo _ _ _ _ _ rfl rfl
  have hlength : (Block.filledTo [type] (s.length + 7)).store 1 (littleEndian16 (s.length + 8)) =
      some (Block.filledTo (type :: littleEndian16 (s.length + 8)) (s.length + 5)) :=
    Block.store_filledTo _ _ _ _ _ rfl rfl
  have hpriority : (Block.filledTo (type :: littleEndian16 (s.length + 8)) (s.length + 5)).store 3
      (littleEndian32 priority) =
      some (Block.filledTo (type :: littleEndian16 (s.length + 8) ++ littleEndian32 priority)
        (s.length + 1)) :=
    Block.store_filledTo _ _ _ _ _ rfl rfl
  have hdata : (Block.filledTo (type :: littleEndian16 (s.length + 8) ++ littleEndian32 priority)
      (s.length + 1)).store 7 (payloadBlock s) =
      some (Block.filledTo
        (type :: littleEndian16 (s.length + 8) ++ littleEndian32 priority ++ payloadBlock s) 0) :=
    Block.store_filledTo _ _ _ _ _ rfl (by rw [length_payloadBlock, Nat.zero_add])
  have hann : uint16 (7 + (s.length + 1)) = 7 + (s.length + 1) := uint16_of_lt (by omega)
  rw [serializationPri, bind_of_eq_some (strlen_payloadBlock hs)]
  simp only [hlen, take_payloadBlock, Block.malloc_eq_filledTo]
  rw [bind_of_eq_some htype, bind_of_eq_some hlength, bind_of_eq_some hpriority,
    bind_of_eq_some hdata, hann, framePri, length_payloadBlock,
    show 7 + (s.length + 1) = s.length + 8 by omega]
  rfl

theorem serializationPri_overflows (type : UInt8) (priority : Int32) {s : CString} (hs : 0 ∉ s)
    (h : 2 ^ 16 ≤ s.length + 8) : serializationPri ⟨type, payloadBlock s⟩ priority = none := by
  have hlt := uint16_lt (1 + 2 + 4 + s.length + 1)
  rw [serializationPri, bind_of_eq_some (strlen_payloadBlock hs)]
  simp only [take_payloadBlock, Option.bind_eq_bind, Option.bind_eq_none_iff]
  intro b₀ h₀ b₁ h₁ b₂ h₂ b₃ h₃
  have hb : b₂.length = uint16 (1 + 2 + 4 + s.length + 1) := by
    rw [Block.length_store h₂, Block.length_store h₁, Block.length_store h₀, Block.malloc,
      List.length_replicate]
  rw [Block.store_eq_none (by rw [hb, length_payloadBlock]; omega)] at h₃
  cases h₃

theorem announced_frame (type : UInt8) (payload : List UInt8) (h : 3 + payload.length < 2 ^ 16) :
    announced (frame type payload) = some (frame type payload).length := by
  rw [length_frame]
  exact congrArg some (value16_littleEndian16 h)

theorem announced_framePri (type : UInt8) (priority : Int32) (payload : List UInt8)
    (h : 7 + payload.length < 2 ^ 16) :
    announced (framePri type priority payload) = some (framePri type priority payload).length := by
  rw [length_framePri]
  exact congrArg some (value16_littleEndian16 h)

theorem roundTrips_iff (type : UInt8) {s : CString} (hs : 0 ∉ s) :
    RoundTrips ⟨type, payloadBlock s⟩ ↔ s.length + 4 < 2 ^ 16 := by
  constructor
  · rintro ⟨st, written, hser, -, -⟩
    by_contra hlarge
    rw [serialization_overflows type hs (Nat.not_lt.mp hlarge)] at hser
    cases hser
  · intro h
    have hp : 3 + (payloadBlock s).length < 2 ^ 16 := by rw [length_payloadBlock]; omega
    refine ⟨_, frame type (payloadBlock s), serialization_fits type hs h, ⟨?_, ?_, ?_⟩, ?_⟩
    · exact Block.contents_filledTo_zero _
    · rw [length_frame, length_payloadBlock]
    · exact announced_frame type _ hp
    · exact deserialization_frame type _ hp 0

theorem roundTripsPri_iff (type : UInt8) (priority : Int32) {s : CString} (hs : 0 ∉ s) :
    RoundTripsPri ⟨type, payloadBlock s⟩ priority ↔ s.length + 8 < 2 ^ 16 := by
  constructor
  · rintro ⟨st, written, hser, -, -⟩
    by_contra hlarge
    rw [serializationPri_overflows type priority hs (Nat.not_lt.mp hlarge)] at hser
    cases hser
  · intro h
    have hp : 7 + (payloadBlock s).length < 2 ^ 16 := by rw [length_payloadBlock]; omega
    refine ⟨_, framePri type priority (payloadBlock s), serializationPri_fits type priority hs h,
      ⟨?_, ?_, ?_⟩, ?_⟩
    · exact Block.contents_filledTo_zero _
    · rw [length_framePri, length_payloadBlock]
    · exact announced_framePri type priority _ hp
    · exact deserializationPri_framePri type priority _ hp 0

/-- Decoding undoes encoding in each format exactly when the frame length fits in 16 bits. -/
theorem decoding_undoes_encoding_iff (type : UInt8) (priority : Int32) (s : CString)
    (hs : 0 ∉ s) :
    (RoundTrips ⟨type, payloadBlock s⟩ ↔ s.length + 4 < 2 ^ 16) ∧
      (RoundTripsPri ⟨type, payloadBlock s⟩ priority ↔ s.length + 8 < 2 ^ 16) :=
  ⟨roundTrips_iff type hs, roundTripsPri_iff type priority hs⟩

theorem decoding_undoes_encoding_short :
    RoundTrips ⟨78, payloadBlock (cstr "fin_programa")⟩ ∧
      RoundTripsPri ⟨78, payloadBlock (cstr "fin_programa")⟩ (-3) := by
  have h := decoding_undoes_encoding_iff 78 (-3) (cstr "fin_programa") (by decide)
  exact ⟨h.1.mpr (by decide), h.2.mpr (by decide)⟩

/-- A script of 65528 characters is the first one whose frame does not fit. -/
theorem large_script_not_roundTrips :
    ¬ ∀ (type : UInt8) (priority : Int32) (s : CString), 0 ∉ s →
      RoundTrips ⟨type, payloadBlock s⟩ ∧ RoundTripsPri ⟨type, payloadBlock s⟩ priority := by
  intro h
  have hs : (0 : UInt8) ∉ List.replicate 65528 (97 : UInt8) := by
    rw [List.mem_replicate]
    rintro ⟨-, h0⟩
    exact absurd h0 (by decide)
  have hfits := (roundTripsPri_iff 78 0 hs).mp (h 78 0 _ hs).2
  rw [List.length_replicate] at hfits
  omega

end Sisop

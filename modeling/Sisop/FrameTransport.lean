import Sisop.StreamReading

/-!
# Sequences of frames over a transport that cuts them anywhere

The writer's frames form one byte stream. Each reader call does one peek and one `recv`; the
transport decides how much of the unread stream has arrived at each of the two. The reader gets
every message back exactly when it always finds a whole header at the peek and the whole frame
at the `recv`: the first shorter answer leaves bytes of `header` or of `stream_in` that nobody
wrote.
-/

namespace Sisop

def writeStream (data : TDataStream) : Option (List UInt8) := do
  let stream ← serialization data
  stream.data.load 0 stream.length

def writeStreamPri (data : TDataStream) (priority : Int32) : Option (List UInt8) := do
  let stream ← serializationPri data priority
  stream.data.load 0 stream.length

/-- A message as the two programs send it, with a priority when `writeStreamPri` sends it. -/
structure Message where
  type : UInt8
  payload : CString
  priority : Option Int32

namespace Message

def headerLength (m : Message) : ℕ := if m.priority.isSome then 7 else 3

def frameLength (m : Message) : ℕ := m.headerLength + (m.payload.length + 1)

structure Fits (m : Message) : Prop where
  no_nul : 0 ∉ m.payload
  length_lt : m.frameLength < 2 ^ 16

def toDataStream (m : Message) : TDataStream := ⟨m.type, payloadBlock m.payload⟩

def sentBytes (m : Message) : Option (List UInt8) :=
  match m.priority with
  | none => writeStream m.toDataStream
  | some p => writeStreamPri m.toDataStream p

def frameBytes (m : Message) : List UInt8 :=
  match m.priority with
  | none => frame m.type (payloadBlock m.payload)
  | some p => framePri m.type p (payloadBlock m.payload)

/-- The reader call that belongs to the message returns it and leaves `rest` unread. -/
def ReadBack (m : Message) (arrived : ℕ × ℕ) (net rest : List UInt8) : Prop :=
  match m.priority with
  | none => readStream arrived net = some (.stream m.toDataStream, rest)
  | some p => readStreamPri arrived net = some (.stream (m.toDataStream, p), rest)

theorem sentBytes_eq (m : Message) (h : m.Fits) : m.sentBytes = some m.frameBytes := by
  have hlt := h.length_lt
  have hload (xs : List UInt8) (n : ℕ) (hn : xs.length = n) :
      (Block.filledTo xs 0).load 0 n = some xs := by
    subst hn
    rw [Block.load_filledTo xs 0 0 xs.length (by omega), List.drop_zero, List.take_length]
  unfold frameLength headerLength at hlt
  unfold sentBytes frameBytes toDataStream
  cases hp : m.priority with
  | none =>
    rw [hp, Option.isSome_none, if_neg (by decide)] at hlt
    simp only [writeStream]
    rw [bind_of_eq_some (serialization_fits m.type h.no_nul (by omega))]
    exact hload _ _ (by rw [length_frame, length_payloadBlock])
  | some p =>
    rw [hp, Option.isSome_some, if_pos rfl] at hlt
    simp only [writeStreamPri]
    rw [bind_of_eq_some (serializationPri_fits m.type p h.no_nul (by omega))]
    exact hload _ _ (by rw [length_framePri, length_payloadBlock])

end Message

/-- One reader call at the start of a frame whose decoder needs the whole frame. -/
theorem readWith_frame {α : Type} (decode : Block UInt8 → Option α) (arrived : ℕ × ℕ)
    (type lo hi : UInt8) (body tail rest : List UInt8) (d : α)
    (hlen : value16 lo hi = body.length + 3)
    (hwhole : decode (Block.filledTo (type :: lo :: hi :: body) 0) = some d)
    (hshort : ∀ n < body.length + 3, ∀ k,
      decode (Block.filledTo ((type :: lo :: hi :: body).take n) k) = none) :
    readWith decode arrived (type :: lo :: hi :: body ++ tail) = some (.stream d, rest) ↔
      3 ≤ arrived.1 ∧ body.length + 3 ≤ arrived.2 ∧ tail = rest := by
  by_cases hpeek : 3 ≤ arrived.1
  · have hheader := readWith_header decode arrived type lo hi (body ++ tail) hpeek _ rfl
    by_cases hrecv : body.length + 3 ≤ arrived.2
    · have hread := readInto_whole (Block.length_malloc 3) Block.length_malloc decode type hlen
        hpeek hrecv tail
      rw [readWith, hread, hwhole]
      simp [hpeek, hrecv]
    · have hgot : recv (value16 lo hi) arrived.2 (type :: lo :: hi :: (body ++ tail)) =
          (type :: lo :: hi :: body).take arrived.2 := by
        rw [recv, hlen, Nat.min_eq_right (by omega)]
        have htake : ((type :: lo :: hi :: body) ++ tail).take arrived.2 =
            (type :: lo :: hi :: body).take arrived.2 :=
          List.take_append_of_le_length (by simp only [List.length_cons]; omega)
        exact htake
      rw [hgot, hshort arrived.2 (by omega)] at hheader
      simp only [List.cons_append, hheader, hpeek, hrecv, false_and, and_false, iff_false]
      split_ifs <;> simp
  · have hlt : (recv 3 arrived.1 (type :: lo :: hi :: (body ++ tail))).length < 3 := by
      rw [recv, List.length_take]
      omega
    simp only [hpeek, false_and, iff_false, List.cons_append]
    by_cases hne : recv 3 arrived.1 (type :: lo :: hi :: (body ++ tail)) = []
    · simp [readWith, readInto, hne]
    · rw [readWith_short_peek decode arrived _ hne hlt]
      simp

theorem deserialization_cut (type : UInt8) (payload : List UInt8)
    (h : 3 + payload.length < 2 ^ 16) (n : ℕ) (hn : n < payload.length + 3) (k : ℕ) :
    deserialization (Block.filledTo ((frame type payload).take n) k) = none := by
  by_cases hshort : n < 3
  · exact deserialization_short (by rw [List.length_take]; omega) k
  · obtain ⟨j, rfl⟩ : ∃ j, n = j + 3 := ⟨n - 3, by omega⟩
    have hpos : uint16Sub (3 + payload.length) (1 + 2) = payload.length := by
      rw [uint16Sub]
      omega
    rw [frame, littleEndian16]
    simp only [List.cons_append, List.nil_append, List.take_succ_cons]
    rw [deserialization_filledTo _ _ _ _ _ payload.length
      (by rw [value16_littleEndian16 h, hpos]), if_neg]
    rw [List.length_take]
    omega

theorem deserializationPri_cut (type : UInt8) (priority : Int32) (payload : List UInt8)
    (h : 7 + payload.length < 2 ^ 16) (n : ℕ) (hn : n < payload.length + 7) (k : ℕ) :
    deserializationPri (Block.filledTo ((framePri type priority payload).take n) k) = none := by
  by_cases hshort : n < 7
  · exact deserializationPri_short (by rw [List.length_take]; omega) k
  · obtain ⟨j, rfl⟩ : ∃ j, n = j + 7 := ⟨n - 7, by omega⟩
    have hpos : uint16Sub (7 + payload.length) (1 + 2 + 4) = payload.length := by
      rw [uint16Sub]
      omega
    rw [framePri, littleEndian16, littleEndian32]
    simp only [List.cons_append, List.nil_append, List.take_succ_cons]
    rw [deserializationPri_filledTo _ _ _ _ _ _ _ _ _ payload.length
      (by rw [value16_littleEndian16 h, hpos]), if_neg]
    rw [List.length_take]
    omega

theorem readStream_frame_iff (arrived : ℕ × ℕ) (type : UInt8) (payload tail rest : List UInt8)
    (h : 3 + payload.length < 2 ^ 16) :
    readStream arrived (frame type payload ++ tail) = some (.stream ⟨type, payload⟩, rest) ↔
      3 ≤ arrived.1 ∧ 3 + payload.length ≤ arrived.2 ∧ tail = rest := by
  have hiff := readWith_frame deserialization arrived type _ _ payload tail rest ⟨type, payload⟩
    ((value16_littleEndian16 h).trans (Nat.add_comm _ _)) (deserialization_frame type _ h 0)
    (deserialization_cut type _ h)
  rw [Nat.add_comm payload.length 3] at hiff
  exact hiff

theorem readStreamPri_framePri_iff (arrived : ℕ × ℕ) (type : UInt8) (p : Int32)
    (payload tail rest : List UInt8) (h : 7 + payload.length < 2 ^ 16) :
    readStreamPri arrived (framePri type p payload ++ tail) =
        some (.stream (⟨type, payload⟩, p), rest) ↔
      3 ≤ arrived.1 ∧ 7 + payload.length ≤ arrived.2 ∧ tail = rest := by
  have hbody : (littleEndian32 p ++ payload).length + 3 = 7 + payload.length := by
    rw [List.length_append, show (littleEndian32 p).length = 4 from rfl]
    omega
  have hiff := readWith_frame deserializationPri arrived type _ _ (littleEndian32 p ++ payload)
    tail rest (⟨type, payload⟩, p) ((value16_littleEndian16 h).trans hbody.symm)
    (deserializationPri_framePri type p _ h 0)
    (fun n hn => deserializationPri_cut type p _ h n (by omega))
  rw [hbody] at hiff
  exact hiff

namespace Message

/-- One reader call at the start of a message's frame. -/
theorem readBack_iff (m : Message) (h : m.Fits) (arrived : ℕ × ℕ) (tail rest : List UInt8) :
    m.ReadBack arrived (m.frameBytes ++ tail) rest ↔
      3 ≤ arrived.1 ∧ m.frameLength ≤ arrived.2 ∧ tail = rest := by
  have hlt := h.length_lt
  rw [frameLength, headerLength, ← length_payloadBlock] at hlt ⊢
  unfold ReadBack frameBytes toDataStream
  cases hp : m.priority with
  | none =>
    rw [hp] at hlt
    exact readStream_frame_iff arrived m.type _ tail rest hlt
  | some p =>
    rw [hp] at hlt
    exact readStreamPri_framePri_iff arrived m.type p _ tail rest hlt

end Message

def sendAll : List Message → Option (List UInt8)
  | [] => some []
  | m :: ms => do
    let bytes ← m.sentBytes
    let rest ← sendAll ms
    return bytes ++ rest

/-- The successive reader calls return the messages; call `i` meets `arrived i`. -/
def ReadsBack : List Message → (ℕ → ℕ × ℕ) → List UInt8 → Prop
  | [], _, _ => True
  | m :: ms, arrived, net =>
    ∃ rest, m.ReadBack (arrived 0) net rest ∧ ReadsBack ms (fun i => arrived (i + 1)) rest

theorem sendAll_eq (ms : List Message) (h : ∀ m ∈ ms, m.Fits) :
    sendAll ms = some (ms.flatMap Message.frameBytes) := by
  induction ms with
  | nil => rfl
  | cons m ms ih =>
    rw [sendAll, bind_of_eq_some (m.sentBytes_eq (h m List.mem_cons_self)),
      bind_of_eq_some (ih fun m' hm' => h m' (List.mem_cons_of_mem _ hm'))]
    rfl

theorem readsBack_frames_iff (ms : List Message) (h : ∀ m ∈ ms, m.Fits)
    (arrived : ℕ → ℕ × ℕ) :
    ReadsBack ms arrived (ms.flatMap Message.frameBytes) ↔
      ∀ i (hi : i < ms.length), 3 ≤ (arrived i).1 ∧ ms[i].frameLength ≤ (arrived i).2 := by
  induction ms generalizing arrived with
  | nil => simp [ReadsBack]
  | cons m ms ih =>
    have hm := h m List.mem_cons_self
    have hms : ∀ m' ∈ ms, m'.Fits := fun m' hm' => h m' (List.mem_cons_of_mem _ hm')
    rw [ReadsBack, List.flatMap_cons]
    simp only [m.readBack_iff hm]
    constructor
    · rintro ⟨rest, ⟨hpeek, hrecv, rfl⟩, hrest⟩ i hi
      cases i with
      | zero => exact ⟨hpeek, hrecv⟩
      | succ i => exact (ih hms _).mp hrest i (Nat.lt_of_succ_lt_succ hi)
    · intro hall
      obtain ⟨hpeek, hrecv⟩ := hall 0 (Nat.succ_pos _)
      refine ⟨_, ⟨hpeek, hrecv, rfl⟩, (ih hms _).mpr fun i hi => ?_⟩
      exact hall (i + 1) (Nat.succ_lt_succ hi)

/-- The readers return exactly the messages written, in order and with type, priority and
payload, if and only if every peek finds a whole header and every `recv` the whole frame. -/
theorem reads_back_messages_iff (ms : List Message) (h : ∀ m ∈ ms, m.Fits)
    (arrived : ℕ → ℕ × ℕ) :
    ∃ net, sendAll ms = some net ∧ (ReadsBack ms arrived net ↔
      ∀ i (hi : i < ms.length), 3 ≤ (arrived i).1 ∧ ms[i].frameLength ≤ (arrived i).2) :=
  ⟨_, sendAll_eq ms h, readsBack_frames_iff ms h arrived⟩

theorem reads_back_messages_whole :
    ∃ net, sendAll [⟨78, cstr "a=1", some 5⟩, ⟨82, cstr "Reanudar", none⟩] = some net ∧
      ReadsBack [⟨78, cstr "a=1", some 5⟩, ⟨82, cstr "Reanudar", none⟩]
        (fun _ => (3, 12)) net := by
  obtain ⟨net, hnet, hiff⟩ := reads_back_messages_iff
    [⟨78, cstr "a=1", some 5⟩, ⟨82, cstr "Reanudar", none⟩]
    (by
      intro m hm
      simp only [List.mem_cons, List.not_mem_nil, or_false] at hm
      rcases hm with rfl | rfl
      · exact ⟨by decide, by decide⟩
      · exact ⟨by decide, by decide⟩)
    (fun _ => (3, 12))
  exact ⟨net, hnet, hiff.mpr (by decide)⟩

/-- One frame of seven bytes of which six have arrived at the `recv`. -/
theorem cut_frame_not_readBack :
    ¬ ∀ (ms : List Message) (arrived : ℕ → ℕ × ℕ), (∀ m ∈ ms, m.Fits) →
      (∀ i, 1 ≤ (arrived i).1 ∧ 1 ≤ (arrived i).2) →
      ∃ net, sendAll ms = some net ∧ ReadsBack ms arrived net := by
  intro h
  have hfits : ∀ m ∈ [(⟨82, cstr "abc", none⟩ : Message)], m.Fits := by
    intro m hm
    rw [List.mem_singleton] at hm
    subst hm
    exact ⟨by decide, by decide⟩
  obtain ⟨net, hnet, hback⟩ := h [⟨82, cstr "abc", none⟩] (fun _ => (3, 6)) hfits (by simp)
  rw [sendAll_eq _ hfits] at hnet
  obtain rfl := Option.some.inj hnet
  have hlt := ((readsBack_frames_iff _ hfits _).mp hback 0 (by decide)).2
  exact absurd hlt (by decide)

end Sisop

import Sisop.StreamReading

/-!
# Frames of a hostile client

The client chooses every byte, the announced length included. `net` is what it sent, `arrived`
what has arrived at the peek and at the `recv`. A reader is harmless when it returns `ERROR`, or
when it stays inside what was filled and gives a payload with a NUL inside its own allocation,
which `LTSconex` then measures and copies.
-/

namespace Sisop

def HarmlessPri (arrived : ℕ × ℕ) (net : List UInt8) : Prop :=
  ∃ rest, readStreamPri arrived net = some (.ERROR, rest) ∨
    ∃ data priority, readStreamPri arrived net = some (.stream (data, priority), rest) ∧
      0 ∈ data.data ∧ (copyScript data.data).isSome

def Harmless (arrived : ℕ × ℕ) (net : List UInt8) : Prop :=
  ∃ rest, readStream arrived net = some (.ERROR, rest) ∨
    ∃ data, readStream arrived net = some (.stream data, rest) ∧ 0 ∈ data.data

/-- What a frame must look like, and how much of it must have arrived, for a reader whose headers
take `header` bytes: nothing arrives at the peek; or a whole `t_header` does and then nothing,
or the whole announced frame, with a NUL behind its headers. -/
def WellFramed (header : ℕ) (arrived : ℕ × ℕ) (net : List UInt8) : Prop :=
  recv 3 arrived.1 net = [] ∨
    ∃ lo hi, 3 ≤ arrived.1 ∧ net[1]? = some lo ∧ net[2]? = some hi ∧
      (recv (value16 lo hi) arrived.2 net = [] ∨
        value16 lo hi ≤ arrived.2 ∧ value16 lo hi ≤ net.length ∧
          0 ∈ (net.take (value16 lo hi)).drop header)

theorem copyScript_isSome {data : List UInt8} (h0 : 0 ∈ data) (hlt : data.length < 2 ^ 16) :
    (copyScript data).isSome := by
  obtain ⟨n, hn⟩ := Option.isSome_iff_exists.mp ((strlen_isSome_iff data).mpr h0)
  have hle := strlen_lt hn
  have hlen : uint16 (n + 1) = n + 1 := uint16_of_lt (by omega)
  have htake : (data.take (n + 1)).length = n + 1 := by
    rw [List.length_take]
    omega
  have hstore := Block.store_malloc (data.take (n + 1)) (n + 1) (by omega)
  rw [htake, Nat.sub_self] at hstore
  simp only [copyScript]
  rw [bind_of_eq_some hn]
  simp only [hlen]
  rw [bind_of_eq_some hstore, Block.contents_filledTo_zero]
  rfl

/-- What the decoders do with the announced frame: the payload is everything behind the headers,
and a frame that is shorter than announced, or than its headers, has no decoding. -/
structure Decodes {α : Type} (header : ℕ) (decode : Block UInt8 → Option α)
    (payload : α → List UInt8) : Prop where
  whole : ∀ type lo hi rest, value16 lo hi = (type :: lo :: hi :: rest).length →
    header ≤ value16 lo hi → ∃ d, decode (Block.filledTo (type :: lo :: hi :: rest) 0) = some d ∧
      payload d = (type :: lo :: hi :: rest).drop header
  partly : ∀ type lo hi rest k, (type :: lo :: hi :: rest).length < value16 lo hi →
    decode (Block.filledTo (type :: lo :: hi :: rest) k) = none
  short : ∀ xs k, xs.length < header → decode (Block.filledTo xs k) = none
  three_le : 3 ≤ header

theorem decodes_deserialization : Decodes 3 deserialization TDataStream.data where
  whole type lo hi rest hlen _ := by
    have hlt := value16_lt lo hi
    simp only [List.length_cons] at hlen
    have hn : uint16Sub (value16 lo hi) (1 + 2) = rest.length := by
      rw [uint16Sub]
      omega
    refine ⟨⟨type, rest⟩, ?_, rfl⟩
    rw [deserialization_filledTo _ _ _ _ _ _ hn, if_pos (Nat.le_refl _), List.take_length]
  partly type lo hi rest k hlen := by
    have hlt := value16_lt lo hi
    simp only [List.length_cons] at hlen
    have hn : uint16Sub (value16 lo hi) (1 + 2) = value16 lo hi - 3 := by
      rw [uint16Sub]
      omega
    rw [deserialization_filledTo _ _ _ _ _ _ hn, if_neg (by omega)]
  short xs k h := deserialization_short h k
  three_le := Nat.le_refl 3

theorem decodes_deserializationPri :
    Decodes 7 deserializationPri (fun d => d.1.data) where
  whole type lo hi rest hlen hheader := by
    have hlt := value16_lt lo hi
    simp only [List.length_cons] at hlen
    rcases rest with _ | ⟨a, _ | ⟨b, _ | ⟨c, _ | ⟨d, rest⟩⟩⟩⟩
    all_goals simp only [List.length_cons, List.length_nil] at hlen
    case cons.cons.cons.cons =>
      have hn : uint16Sub (value16 lo hi) (1 + 2 + 4) = rest.length := by
        rw [uint16Sub]
        omega
      refine ⟨(⟨type, rest⟩, value32 a b c d), ?_, rfl⟩
      rw [deserializationPri_filledTo _ _ _ _ _ _ _ _ _ _ hn, if_pos (Nat.le_refl _),
        List.take_length]
    all_goals omega
  partly type lo hi rest k hlen := by
    have hlt := value16_lt lo hi
    simp only [List.length_cons] at hlen
    rcases rest with _ | ⟨a, _ | ⟨b, _ | ⟨c, _ | ⟨d, rest⟩⟩⟩⟩
    case cons.cons.cons.cons =>
      simp only [List.length_cons] at hlen
      have hn : uint16Sub (value16 lo hi) (1 + 2 + 4) = value16 lo hi - 7 := by
        rw [uint16Sub]
        omega
      rw [deserializationPri_filledTo _ _ _ _ _ _ _ _ _ _ hn, if_neg (by omega)]
    all_goals
      refine deserializationPri_short ?_ k
      simp only [List.length_cons, List.length_nil]
      omega
  short xs k h := deserializationPri_short h k
  three_le := by decide

theorem Decodes.take_iff {α : Type} {header : ℕ} {decode : Block UInt8 → Option α}
    {payload : α → List UInt8} (D : Decodes header decode payload) (type lo hi : UInt8)
    (rest : List UInt8) (n : ℕ) (hn : n ≤ value16 lo hi)
    (hle : n ≤ (type :: lo :: hi :: rest).length) :
    (∃ d, decode (Block.filledTo ((type :: lo :: hi :: rest).take n) (value16 lo hi - n)) = some d ∧
        0 ∈ payload d) ↔
      n = value16 lo hi ∧ 0 ∈ ((type :: lo :: hi :: rest).take n).drop header := by
  have hthree := D.three_le
  have hlen : ((type :: lo :: hi :: rest).take n).length = n := by
    rw [List.length_take]
    omega
  by_cases hshort : n < header
  · rw [D.short _ _ (by omega), List.drop_eq_nil_of_le (by omega)]
    simp
  · obtain ⟨j, rfl⟩ : ∃ j, n = j + 3 := ⟨n - 3, by omega⟩
    simp only [List.take_succ_cons] at hlen ⊢
    rcases Nat.lt_or_eq_of_le hn with hlt | heq
    · rw [D.partly _ _ _ _ _ (by omega)]
      simp only [reduceCtorEq, false_and, exists_false, false_iff, not_and]
      omega
    · obtain ⟨d, hd, hpayload⟩ := D.whole type lo hi (rest.take j) (by omega) (by omega)
      rw [heq, Nat.sub_self, hd]
      simp only [Option.some.injEq, true_and]
      rw [← hpayload]
      exact ⟨fun ⟨d', hd', h0⟩ => hd' ▸ h0, fun h0 => ⟨d, rfl, h0⟩⟩

/-- A reader returns `ERROR` or a payload with a NUL exactly on well-formed frames. -/
theorem Decodes.readWith_iff {α : Type} {header : ℕ} {decode : Block UInt8 → Option α}
    {payload : α → List UInt8} (D : Decodes header decode payload) (arrived : ℕ × ℕ)
    (net : List UInt8) :
    (∃ rest, readWith decode arrived net = some (.ERROR, rest) ∨
      ∃ d, readWith decode arrived net = some (.stream d, rest) ∧ 0 ∈ payload d) ↔
      WellFramed header arrived net := by
  by_cases hnone : recv 3 arrived.1 net = []
  · simp [readWith, readInto, WellFramed, hnone]
  by_cases hshort : (recv 3 arrived.1 net).length < 3
  · rw [readWith_short_peek decode arrived net hnone hshort, WellFramed]
    simp only [reduceCtorEq, false_and, exists_false, or_self, hnone, false_or, false_iff]
    rintro ⟨lo, hi, ha, -, h2, -⟩
    obtain ⟨hlt, -⟩ := List.getElem?_eq_some_iff.mp h2
    rw [recv, List.length_take] at hshort
    omega
  obtain ⟨ha, hl⟩ : 3 ≤ arrived.1 ∧ 3 ≤ net.length := by
    rw [recv, List.length_take] at hshort
    omega
  obtain ⟨type, lo, hi, rest, rfl⟩ : ∃ type lo hi rest, net = type :: lo :: hi :: rest := by
    rcases net with _ | ⟨type, _ | ⟨lo, _ | ⟨hi, rest⟩⟩⟩
    case cons.cons.cons => exact ⟨type, lo, hi, rest, rfl⟩
    all_goals
      simp only [List.length_cons, List.length_nil] at hl
      omega
  rw [readWith_header decode arrived type lo hi rest ha _ rfl]
  have hwell : WellFramed header arrived (type :: lo :: hi :: rest) ↔
      (recv (value16 lo hi) arrived.2 (type :: lo :: hi :: rest) = [] ∨
        value16 lo hi ≤ arrived.2 ∧ value16 lo hi ≤ (type :: lo :: hi :: rest).length ∧
          0 ∈ ((type :: lo :: hi :: rest).take (value16 lo hi)).drop header) := by
    rw [WellFramed, or_iff_right hnone]
    simp [ha]
  rw [hwell]
  by_cases hgot : recv (value16 lo hi) arrived.2 (type :: lo :: hi :: rest) = []
  · simp [hgot]
  · set net := type :: lo :: hi :: rest with hnet
    obtain ⟨n, hn⟩ : ∃ n, n = min (min (value16 lo hi) arrived.2) net.length := ⟨_, rfl⟩
    have hrecv : recv (value16 lo hi) arrived.2 net = net.take n := by
      rw [recv, hn, List.take_eq_take_iff]
      omega
    have htake := D.take_iff type lo hi rest n (by omega) (by rw [← hnet]; omega)
    rw [← hnet] at htake
    have hlen : (net.take n).length = n := by
      rw [List.length_take]
      omega
    rw [hrecv] at hgot ⊢
    rw [if_neg hgot, or_iff_right hgot, hlen]
    have hwhole : (value16 lo hi ≤ arrived.2 ∧ value16 lo hi ≤ net.length ∧
        0 ∈ (net.take (value16 lo hi)).drop header) ↔
        n = value16 lo hi ∧ 0 ∈ (net.take n).drop header := by
      constructor
      · rintro ⟨hb, hl', h0⟩
        have heq : n = value16 lo hi := by omega
        exact ⟨heq, heq ▸ h0⟩
      · rintro ⟨heq, h0⟩
        exact ⟨by omega, by omega, heq ▸ h0⟩
    rw [hwhole, ← htake]
    simp only [Option.map_eq_some_iff, Prod.mk.injEq, reduceCtorEq, false_and, and_false,
      exists_false, false_or, Received.stream.injEq]
    constructor
    · rintro ⟨_, d, ⟨d', hd', rfl, -⟩, h0⟩
      exact ⟨d', hd', h0⟩
    · rintro ⟨d, hd, h0⟩
      exact ⟨_, d, ⟨d, hd, rfl, rfl⟩, h0⟩

theorem harmless_iff (arrived : ℕ × ℕ) (net : List UInt8) :
    Harmless arrived net ↔ WellFramed 3 arrived net :=
  decodes_deserialization.readWith_iff arrived net

/-- Whatever a reader returns as payload came through a 16-bit length. -/
theorem deserializationPri_length_lt {stream : Block UInt8} {d : TDataStream × Int32}
    (h : deserializationPri stream = some d) : d.1.data.length < 2 ^ 16 := by
  rw [deserializationPri] at h
  simp only [Option.bind_eq_bind, Option.bind_eq_some_iff] at h
  obtain ⟨type, -, lo, -, hi, -, a, -, b, -, c, -, e, -, data, hload, hd⟩ := h
  obtain rfl := Option.some.inj hd
  exact (Block.length_load hload).trans_lt (Nat.mod_lt _ (by decide))

theorem readStreamPri_length_lt {arrived : ℕ × ℕ} {net rest : List UInt8} {data : TDataStream}
    {priority : Int32} (h : readStreamPri arrived net = some (.stream (data, priority), rest)) :
    data.data.length < 2 ^ 16 := by
  simp only [readStreamPri, readWith, readInto] at h
  split_ifs at h with hpeek
  · simp at h
  simp only [Option.bind_eq_bind, Option.bind_eq_some_iff] at h
  obtain ⟨header, -, lo, -, hi, -, h⟩ := h
  split_ifs at h with hgot
  · simp at h
  simp only [Option.bind_eq_some_iff] at h
  obtain ⟨stream, -, d, hd, h⟩ := h
  simp only [Option.pure_def, Option.some.injEq, Prod.mk.injEq, Received.stream.injEq] at h
  obtain ⟨rfl, -⟩ := h
  exact deserializationPri_length_lt hd

theorem harmlessPri_iff (arrived : ℕ × ℕ) (net : List UInt8) :
    HarmlessPri arrived net ↔ WellFramed 7 arrived net := by
  rw [← decodes_deserializationPri.readWith_iff arrived net, HarmlessPri]
  constructor
  · rintro ⟨rest, herr | ⟨data, priority, hread, h0, -⟩⟩
    · exact ⟨rest, Or.inl herr⟩
    · exact ⟨rest, Or.inr ⟨_, hread, h0⟩⟩
  · rintro ⟨rest, herr | ⟨⟨data, priority⟩, hread, h0⟩⟩
    · exact ⟨rest, Or.inl herr⟩
    · exact ⟨rest, Or.inr ⟨data, priority, hread, h0,
        copyScript_isSome h0 (readStreamPri_length_lt hread)⟩⟩

/-- Both readers are harmless exactly on frames that arrive whole, are at least as long as their
headers and carry a NUL behind them. -/
theorem readers_harmless_iff (arrived : ℕ × ℕ) (net : List UInt8) :
    (HarmlessPri arrived net ↔ WellFramed 7 arrived net) ∧
      (Harmless arrived net ↔ WellFramed 3 arrived net) :=
  ⟨harmlessPri_iff arrived net, harmless_iff arrived net⟩

/-- A frame that announces five bytes makes `deserializationPri` read a priority of which two
bytes are outside the buffer. -/
theorem five_byte_frame_not_harmlessPri :
    ¬ ∀ (arrived : ℕ × ℕ) (net : List UInt8), HarmlessPri arrived net ∧ Harmless arrived net := by
  intro h
  have hwell := (harmlessPri_iff (3, 5) [78, 5, 0, 97, 0]).mp (h _ _).1
  rcases hwell with hnone | ⟨lo, hi, -, hlo, hhi, hgot | ⟨-, -, h0⟩⟩
  · exact absurd hnone (by decide)
  · obtain rfl := Option.some.inj hlo
    obtain rfl := Option.some.inj hhi
    exact absurd hgot (by decide)
  · obtain rfl := Option.some.inj hlo
    obtain rfl := Option.some.inj hhi
    exact absurd h0 (by decide)

end Sisop

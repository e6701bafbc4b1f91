import Sisop.ConfigFile
import Sisop.FifoRound

/-!
# Reading `pp.config` again

The configuration thread reads the file at its start and again for every event about it that
`inotify` reports. What one `read` fetches is a row of events of different lengths.
-/

namespace Sisop

def QueueName.text : QueueName → CString
  | .plpn => cstr "PLPN"
  | .plpr => cstr "PLPR"
  | .plfq => cstr "PLFQ"
  | .plfio => cstr "PLFIO"

namespace ConfigFile

open Dictionary Memory

/-- What the pointers of `t_configure` lead to. `ALFA` is the text that `atof` reads. -/
structure TConfigure where
  ALG : CString
  queuesArray : List TQueuesArray
  SENT_TIME : Int32
  flagReady : Bool
  PORT : Int32
  quantum : Int32
  IO_THREADS : Int32
  IO_TIME : Int32
  MMP : Int32
  MPS : Int32
  TANT : Int32
  ALFA : CString

section Reader

variable (rounds : ℕ)

/-- A value that is read through: `strcmp` and `atof` do not take a null pointer. -/
def givenString (key : CString) : Program (DictionaryMemory CString) CString := do
  let value ← configGetStringValue rounds key
  match value with
  | none => .stop .fault
  | some text => return text

def readEntries : List TQueuesArray → Program (DictionaryMemory CString) (List TQueuesArray)
  | [] => pure []
  | entry :: entries => do
    let priority ← configGetIntValue rounds entry.name.text
    let entries ← readEntries entries
    return { entry with priority := priority.toInt } :: entries

/-- The part of `configurationReader` that is run once. -/
def readOnce (configStruct : TConfigure) : Program (DictionaryMemory CString) TConfigure := do
  let PORT ← configGetIntValue rounds (cstr "PORT")
  let quantum ← configGetIntValue rounds (cstr "QUANTUM")
  let IO_THREADS ← configGetIntValue rounds (cstr "IO_THREADS")
  let IO_TIME ← configGetIntValue rounds (cstr "IO_TIME")
  let MMP ← configGetIntValue rounds (cstr "MMP")
  let MPS ← configGetIntValue rounds (cstr "MPS")
  let TANT ← configGetIntValue rounds (cstr "TANT")
  let ALFA ← givenString rounds (cstr "ALFA")
  return { configStruct with
    PORT, quantum, IO_THREADS, IO_TIME, MMP, MPS, TANT, ALFA, flagReady := true }

/-- The ready list is put in order in `OrderInsert`. -/
def configurationReader (configStruct : TConfigure) :
    Program (DictionaryMemory CString) TConfigure := do
  let ALG ← givenString rounds (cstr "ALG")
  let queuesArray ← readEntries rounds configStruct.queuesArray
  let SENT_TIME ← configGetIntValue rounds (cstr "SENT_TIME")
  let configStruct := { configStruct with
    ALG, queuesArray := reorderQueuesArrayPriority queuesArray, SENT_TIME }
  if configStruct.flagReady then return configStruct else readOnce rounds configStruct

end Reader

/-- `struct inotify_event`, with the name as `strcpy` finds it. -/
structure InotifyEvent where
  mask : ℕ
  len : ℕ
  name : CString
  deriving DecidableEq, Repr

def fieldAt (offset : ℕ) (buff : List UInt8) : ℕ :=
  ((buff.drop offset).take 4).foldr (fun byte n => byte.toNat + 2 ^ 8 * n) 0

def eventAt (buff : List UInt8) : InotifyEvent :=
  ⟨fieldAt 4 buff, fieldAt 12 buff, (buff.drop 16).takeWhile (· != 0)⟩

/-- `while (i < len)` on the bytes from `i` on. -/
def eventsOf : (rounds : ℕ) → (buff : List UInt8) → List InotifyEvent
  | 0, _ => []
  | rounds + 1, buff =>
    if buff = [] then []
    else eventAt buff :: eventsOf rounds (buff.drop (16 + (eventAt buff).len))

/-- `IN_MODIFY` is 2. -/
def InotifyEvent.modifies (pevent : InotifyEvent) : Bool := pevent.mask.testBit 1

def InotifyEvent.action (pevent : InotifyEvent) : CString :=
  if pevent.len ≠ 0 then pevent.name else cstr "./"

section Thread

variable (malloc : Allocator (Cell (THashElement CString))) (rounds : ℕ)

def readFile (file : Option (List UInt8)) (configStruct : TConfigure) : Except Stop TConfigure :=
  ((do configCreate malloc rounds file; configurationReader rounds configStruct) created).map
    Prod.fst

/-- The file as the readings find it, one after the other, and the readings so far. -/
def onEvent (disk : ℕ → Option (List UInt8)) (w : ℕ × TConfigure) (pevent : InotifyEvent) :
    Except Stop (ℕ × TConfigure) :=
  if pevent.modifies ∧ pevent.action = cstr "pp.config" then
    (readFile malloc rounds (disk w.1) w.2).map fun configStruct => (w.1 + 1, configStruct)
  else .ok w

def onRead (disk : ℕ → Option (List UInt8)) (w : ℕ × TConfigure) (buff : List UInt8) :
    Except Stop (ℕ × TConfigure) :=
  (eventsOf (buff.length + 1) buff).foldlM (onEvent malloc rounds disk) w

/-- `configure` as far as the bytes in `reads` take it. -/
def configure (disk : ℕ → Option (List UInt8)) (reads : List (List UInt8))
    (configStruct : TConfigure) : Except Stop (ℕ × TConfigure) := do
  let configStruct ← readFile malloc rounds (disk 0) configStruct
  reads.foldlM (onRead malloc rounds disk) (1, configStruct)

end Thread

def Given (properties : List (CString × Option CString)) (keys : List CString) : Prop :=
  ∀ key ∈ keys, (valueOf properties key).isSome = true

def textAt (properties : List (CString × Option CString)) (key : CString) : CString :=
  (valueOf properties key).getD []

def numberAt (properties : List (CString × Option CString)) (key : CString) : Int32 :=
  atoi (textAt properties key)

def prioritiesAt (properties : List (CString × Option CString)) (name : QueueName) : ℤ :=
  (numberAt properties name.text).toInt

def namesInOrder : List QueueName := [.plpn, .plpr, .plfq, .plfio]

def reloadKeys : List CString :=
  cstr "ALG" :: namesInOrder.map QueueName.text ++ [cstr "SENT_TIME"]

def onceKeys : List CString :=
  [cstr "PORT", cstr "QUANTUM", cstr "IO_THREADS", cstr "IO_TIME", cstr "MMP", cstr "MPS",
    cstr "TANT", cstr "ALFA"]

variable (properties : List (CString × Option CString))

def TConfigure.reloaded (s : TConfigure) : TConfigure :=
  { s with
    ALG := textAt properties (cstr "ALG")
    queuesArray := readPriorities (prioritiesAt properties) s.queuesArray
    SENT_TIME := numberAt properties (cstr "SENT_TIME") }

def TConfigure.completed (s : TConfigure) : TConfigure :=
  { s with
    PORT := numberAt properties (cstr "PORT")
    quantum := numberAt properties (cstr "QUANTUM")
    IO_THREADS := numberAt properties (cstr "IO_THREADS")
    IO_TIME := numberAt properties (cstr "IO_TIME")
    MMP := numberAt properties (cstr "MMP")
    MPS := numberAt properties (cstr "MPS")
    TANT := numberAt properties (cstr "TANT")
    ALFA := textAt properties (cstr "ALFA")
    flagReady := true }

section Reading

variable {properties} {rounds : ℕ} {m : DictionaryMemory CString} {s : TConfigure}

theorem given_cons {key : CString} {keys : List CString} :
    Given properties (key :: keys) ↔
      (valueOf properties key).isSome = true ∧ Given properties keys := List.forall_mem_cons

theorem given_nil : Given properties [] ↔ True := iff_of_true (List.forall_mem_nil _) trivial

theorem given_append {keys keys' : List CString} :
    Given properties (keys ++ keys') ↔ Given properties keys ∧ Given properties keys' :=
  List.forall_mem_append

/-- What `config_create` leaves behind, seen through `config_get_string_value`. -/
def Holds (rounds : ℕ) (m : DictionaryMemory CString)
    (properties : List (CString × Option CString)) : Prop :=
  ∀ key, configGetStringValue rounds key m = .ok (valueOf properties key, m)

theorem Holds.givenString (h : Holds rounds m properties) (key : CString) :
    Inspects (givenString rounds key) m ((valueOf properties key).isSome = true)
      (textAt properties key) := by
  have hkey := h key
  rw [textAt]
  cases hvalue : valueOf properties key with
  | none =>
    rw [hvalue] at hkey
    exact ⟨fun hsome => (by cases hsome), fun _ => bind_of_ok hkey⟩
  | some text =>
    rw [hvalue] at hkey
    exact ⟨fun _ => bind_of_ok hkey, fun hnone => absurd rfl hnone⟩

theorem Holds.configGetIntValue (h : Holds rounds m properties) (key : CString) :
    Inspects (configGetIntValue rounds key) m ((valueOf properties key).isSome = true)
      (numberAt properties key) := by
  have hkey := h key
  rw [numberAt, textAt]
  cases hvalue : valueOf properties key with
  | none =>
    rw [hvalue] at hkey
    exact ⟨fun hsome => (by cases hsome), fun _ => bind_of_ok hkey⟩
  | some text =>
    rw [hvalue] at hkey
    exact ⟨fun _ => bind_of_ok hkey, fun hnone => absurd rfl hnone⟩

theorem Holds.readEntries (h : Holds rounds m properties) (entries : List TQueuesArray) :
    Inspects (readEntries rounds entries) m (Given properties (entries.map fun e => e.name.text))
      (entries.map fun entry => { entry with priority := prioritiesAt properties entry.name }) := by
  induction entries with
  | nil => exact Settles.of_iff (Inspects.pure [] m) given_nil.symm
  | cons entry entries ih =>
    refine Settles.of_iff ?_ given_cons.symm
    apply (h.configGetIntValue entry.name.text).bind
    refine Settles.of_iff ?_ (iff_of_eq (and_true _))
    exact ih.bind (Inspects.pure _ m)

theorem Holds.readOnce (h : Holds rounds m properties) (s : TConfigure) :
    Inspects (readOnce rounds s) m (Given properties onceKeys) (s.completed properties) := by
  have hbinds : Inspects (ConfigFile.readOnce rounds s) m _ (s.completed properties) :=
    (h.configGetIntValue _).bind <| (h.configGetIntValue _).bind <|
      (h.configGetIntValue _).bind <| (h.configGetIntValue _).bind <|
      (h.configGetIntValue _).bind <| (h.configGetIntValue _).bind <|
      (h.configGetIntValue _).bind <| (h.givenString _).bind <| Inspects.pure _ m
  refine Settles.of_iff hbinds ?_
  simp only [onceKeys, given_cons, given_nil]

/-- The keys that a reading needs, and what it makes of the file. -/
theorem Holds.configurationReader (h : Holds rounds m properties) (s : TConfigure)
    (hnames : (s.queuesArray.map (·.name)).Perm namesInOrder) :
    Inspects (configurationReader rounds s) m
      (Given properties (if s.flagReady then reloadKeys else reloadKeys ++ onceKeys))
      (if s.flagReady then s.reloaded properties
        else (s.reloaded properties).completed properties) := by
  have hgiven : Given properties reloadKeys ↔
      (valueOf properties (cstr "ALG")).isSome = true ∧
        Given properties (s.queuesArray.map fun e => e.name.text) ∧
        (valueOf properties (cstr "SENT_TIME")).isSome = true := by
    have hperm := hnames.map QueueName.text
    rw [List.map_map] at hperm
    have hiff : Given properties (s.queuesArray.map fun e => e.name.text) ↔
        Given properties (namesInOrder.map QueueName.text) :=
      forall_congr' fun key => imp_congr_left hperm.mem_iff
    rw [reloadKeys, List.cons_append, given_cons, given_append, given_cons, given_nil, and_true,
      hiff]
  cases hflag : s.flagReady with
  | true =>
    have hbinds : Inspects (ConfigFile.configurationReader rounds s) m _ (s.reloaded properties) :=
      (h.givenString _).bind <| (h.readEntries _).bind <| (h.configGetIntValue _).bind <| by
        rw [if_pos (by exact hflag)]
        exact Inspects.pure _ m
    refine Settles.of_iff hbinds ?_
    rw [if_pos rfl, hgiven, and_true]
  | false =>
    have hbinds : Inspects (ConfigFile.configurationReader rounds s) m _
        ((s.reloaded properties).completed properties) :=
      (h.givenString _).bind <| (h.readEntries _).bind <| (h.configGetIntValue _).bind <| by
        rw [if_neg (by exact ne_true_of_eq_false hflag)]
        exact h.readOnce _
    refine Settles.of_iff hbinds ?_
    rw [if_neg Bool.false_ne_true, given_append, hgiven, and_assoc, and_assoc]

end Reading

section Events

def fieldBytes (n : ℕ) : List UInt8 :=
  [UInt8.ofNat n, UInt8.ofNat (n / 2 ^ 8), UInt8.ofNat (n / 2 ^ 16), UInt8.ofNat (n / 2 ^ 24)]

/-- What the kernel reports. A name is ended by a NUL and more of them as padding. -/
structure Notice where
  wd : UInt32
  mask : UInt32
  cookie : UInt32
  name : Option (CString × ℕ)
  noNul : ∀ named ∈ name, (0 : UInt8) ∉ named.1
  short : ∀ named ∈ name, named.1.length ≤ 255 ∧ named.2 < 16

namespace Notice

def nameBytes (notice : Notice) : List UInt8 :=
  match notice.name with
  | none => []
  | some (name, padding) => name ++ 0 :: List.replicate padding 0

def bytes (notice : Notice) : List UInt8 :=
  fieldBytes notice.wd.toNat ++ (fieldBytes notice.mask.toNat ++ (fieldBytes notice.cookie.toNat ++
    (fieldBytes notice.nameBytes.length ++ notice.nameBytes)))

/-- The file in the directory that was written to. -/
def modifies (notice : Notice) : Bool :=
  notice.mask.toNat.testBit 1 && (notice.name.map Prod.fst == some (cstr "pp.config"))

end Notice

theorem fieldAt_append {n : ℕ} (h : n < 2 ^ 32) (front rest : List UInt8) :
    fieldAt front.length (front ++ (fieldBytes n ++ rest)) = n := by
  have hslice : ((front ++ (fieldBytes n ++ rest)).drop front.length).take 4 = fieldBytes n := by
    rw [List.drop_left]
    rfl
  rw [fieldAt, hslice]
  simp only [fieldBytes, List.foldr_cons, List.foldr_nil, UInt8.toNat_ofNat']
  omega

variable (notice : Notice) (rest : List UInt8)

theorem length_nameBytes : notice.nameBytes.length ≤ 271 := by
  have hshort := notice.short
  rw [Notice.nameBytes]
  cases hname : notice.name with
  | none => exact Nat.zero_le _
  | some named =>
    have hboth := hshort named hname
    dsimp only
    rw [List.length_append, List.length_cons, List.length_replicate]
    omega

theorem eventAt_mask : (eventAt (notice.bytes ++ rest)).mask = notice.mask.toNat := by
  have hfield := fieldAt_append notice.mask.toNat_lt (fieldBytes notice.wd.toNat)
    (fieldBytes notice.cookie.toNat ++
      (fieldBytes notice.nameBytes.length ++ notice.nameBytes) ++ rest)
  simp only [Notice.bytes, List.append_assoc] at hfield ⊢
  exact hfield

theorem eventAt_len : (eventAt (notice.bytes ++ rest)).len = notice.nameBytes.length := by
  have hlength := length_nameBytes notice
  have hfield := fieldAt_append (n := notice.nameBytes.length) (by omega)
    (fieldBytes notice.wd.toNat ++ fieldBytes notice.mask.toNat ++ fieldBytes notice.cookie.toNat)
    (notice.nameBytes ++ rest)
  simp only [Notice.bytes, List.append_assoc] at hfield ⊢
  exact hfield

theorem drop_bytes : (notice.bytes ++ rest).drop 16 = notice.nameBytes ++ rest := rfl

/-- The name is cut off at its NUL, and a directory without one stands for itself. -/
theorem eventAt_action : (eventAt (notice.bytes ++ rest)).action =
    (notice.name.map Prod.fst).getD (cstr "./") := by
  rw [InotifyEvent.action, eventAt_len, eventAt, drop_bytes, Notice.nameBytes]
  have hnul := notice.noNul
  cases hname : notice.name with
  | none => rfl
  | some named =>
    have hkeep : ∀ c ∈ named.1, (c != 0) = true := by
      rintro c hc
      rw [bne_iff_ne]
      rintro rfl
      exact hnul named hname hc
    dsimp only
    rw [if_pos (by simp), List.append_assoc, List.takeWhile_append_of_pos hkeep, List.cons_append,
      List.takeWhile_cons_of_neg (by decide), List.append_nil]
    rfl

/-- The walk over the bytes meets the events that were written, each at its place. -/
theorem eventsOf_bytes (notices : List Notice) {rounds : ℕ}
    (hrounds : (notices.flatMap Notice.bytes).length < rounds) :
    List.Forall₂ (fun pevent notice =>
        (pevent.modifies ∧ pevent.action = cstr "pp.config") ↔ notice.modifies = true)
      (eventsOf rounds (notices.flatMap Notice.bytes)) notices := by
  induction notices generalizing rounds with
  | nil =>
    cases rounds with
    | zero => exact .nil
    | succ rounds => exact .nil
  | cons notice notices ih =>
    obtain ⟨rounds, rfl⟩ := Nat.exists_eq_add_one_of_ne_zero (Nat.ne_zero_of_lt hrounds)
    rw [List.flatMap_cons] at hrounds ⊢
    have hne : notice.bytes ++ notices.flatMap Notice.bytes ≠ [] := List.cons_ne_nil _ _
    have hnext : (notice.bytes ++ notices.flatMap Notice.bytes).drop
        (16 + (eventAt (notice.bytes ++ notices.flatMap Notice.bytes)).len) =
          notices.flatMap Notice.bytes := by
      rw [eventAt_len, ← List.drop_drop, drop_bytes, List.drop_left]
    have hbytes : 16 ≤ notice.bytes.length := by
      rw [Notice.bytes, ← List.append_assoc, ← List.append_assoc, ← List.append_assoc,
        List.length_append]
      exact Nat.le_add_right 16 _
    rw [List.length_append] at hrounds
    rw [eventsOf, if_neg hne, hnext]
    refine .cons ?_ (ih (by omega))
    rw [eventAt_action, InotifyEvent.modifies, eventAt_mask, Notice.modifies, Bool.and_eq_true,
      beq_iff_eq]
    refine and_congr_right fun _ => ?_
    cases notice.name with
    | none => exact iff_of_false (by decide) (by simp)
    | some named => simp

end Events

section Run

def TConfigure.keys (s : TConfigure) : List CString :=
  if s.flagReady then reloadKeys else reloadKeys ++ onceKeys

def TConfigure.read (s : TConfigure) (properties : List (CString × Option CString)) : TConfigure :=
  if s.flagReady then s.reloaded properties else (s.reloaded properties).completed properties

/-- A file that cannot be opened has no property. -/
def propertiesIn (file : Option (List UInt8)) : Option (List (CString × Option CString)) :=
  match file with
  | none => some []
  | some content => propertiesOf content

def foundIn (file : Option (List UInt8)) : List (CString × Option CString) :=
  (propertiesIn file).getD []

/-- The lines have a key each, and the keys have values. -/
def Readable (file : Option (List UInt8)) (keys : List CString) : Prop :=
  (propertiesIn file).isSome = true ∧ Given (foundIn file) keys

variable {malloc : Allocator (Cell (THashElement CString))} {rounds k : ℕ} {s : TConfigure}
  {disk : ℕ → Option (List UInt8)}

def TConfigure.Named (s : TConfigure) : Prop :=
  (s.queuesArray.map (·.name)).Perm namesInOrder

theorem TConfigure.Named.read (h : s.Named) (properties : List (CString × Option CString)) :
    (s.read properties).Named := by
  have hlength : s.queuesArray.length = 4 := by
    rw [← List.length_map (·.name), h.length_eq]
    rfl
  have hnames := (readPriorities_names (prioritiesAt properties) hlength).trans h
  rw [TConfigure.read]
  split_ifs
  · exact hnames
  · exact hnames

theorem holds_created (hrounds : 0 < rounds) : Holds rounds created [] := by
  intro key
  obtain ⟨-, place, hstored⟩ : Represents (created : DictionaryMemory CString) .empty :=
    represents_created
  exact dictionaryGet_of_stored hstored key hrounds

theorem settles_of_holds {file : Option (List UInt8)} {m : DictionaryMemory CString}
    (hcreate : configCreate malloc rounds file created = .ok ((), m))
    (hsome : (propertiesIn file).isSome = true) (hm : Holds rounds m (foundIn file))
    (hs : s.Named) :
    Settles (readFile malloc rounds file s) (Readable file s.keys) (s.read (foundIn file)) := by
  have hreads := (hm.configurationReader s hs).map Prod.fst
  rw [readFile, bind_of_ok hcreate]
  exact hreads.of_iff (and_iff_right hsome).symm

/-- With enough rounds a reading takes what is in the file. -/
theorem readFile_settles (malloc : Allocator (Cell (THashElement CString)))
    (file : Option (List UInt8)) : ∃ enough, ∀ rounds, enough ≤ rounds → ∀ s : TConfigure,
      s.Named → Settles (readFile malloc rounds file s) (Readable file s.keys)
        (s.read (foundIn file)) := by
  cases file with
  | none =>
    exact ⟨1, fun rounds hrounds s hs => settles_of_holds rfl rfl (holds_created hrounds) hs⟩
  | some content =>
    obtain ⟨hends, hfault⟩ := config_reads malloc content
    cases hcontent : propertiesOf content with
    | none =>
      obtain ⟨enough, hfault⟩ := hfault hcontent
      refine ⟨enough, fun rounds hrounds s _ => ⟨fun hread => ?_, fun _ => ?_⟩⟩
      · have hsome := hread.1
        rw [propertiesIn, hcontent] at hsome
        cases hsome
      · rw [readFile, bind_of_error (hfault rounds hrounds)]
        rfl
    | some properties =>
      obtain ⟨enough, hends⟩ := hends properties hcontent
      refine ⟨enough, fun rounds hrounds s hs => ?_⟩
      obtain ⟨_, m, hcreate, -, hvalues⟩ := hends rounds hrounds
      have hfound : foundIn (some content) = properties := by
        rw [foundIn, propertiesIn, hcontent]
        rfl
      refine settles_of_holds hcreate ?_ ?_ hs
      · rw [propertiesIn, hcontent]
        rfl
      · rw [hfound]
        exact fun key => (hvalues key).1

/-- One number of rounds for all readings up to a given one. -/
theorem enough_for_all {P : ℕ → ℕ → Prop}
    (h : ∀ i, ∃ enough, ∀ rounds, enough ≤ rounds → P i rounds) (n : ℕ) :
    ∃ enough, ∀ rounds, enough ≤ rounds → ∀ i ≤ n, P i rounds := by
  choose enough henough using h
  refine ⟨(Finset.range (n + 1)).sup enough, fun rounds hrounds i hi => ?_⟩
  exact henough i rounds ((Finset.le_sup (Finset.mem_range_succ_iff.mpr hi)).trans hrounds)

/-- What the settings are before the reading with the number `k`. -/
def readings (disk : ℕ → Option (List UInt8)) (s : TConfigure) : ℕ → TConfigure
  | 0 => s
  | k + 1 => (readings disk s k).read (foundIn (disk k))

theorem readings_named (disk : ℕ → Option (List UInt8)) (hs : s.Named) (k : ℕ) :
    (readings disk s k).Named := by
  induction k with
  | zero => exact hs
  | succ k ih => exact ih.read _

theorem read_flagReady (s : TConfigure) (properties : List (CString × Option CString)) :
    (s.read properties).flagReady = true := by
  rw [TConfigure.read]
  split_ifs with hflag
  · exact hflag
  · rfl

theorem readings_flagReady (disk : ℕ → Option (List UInt8)) (s : TConfigure) (k : ℕ) :
    (readings disk s (k + 1)).flagReady = true := read_flagReady _ _

/-- What every reading up to the number `n` does. -/
def ReadsFiles (malloc : Allocator (Cell (THashElement CString))) (rounds : ℕ)
    (disk : ℕ → Option (List UInt8)) (n : ℕ) : Prop :=
  ∀ i ≤ n, ∀ s : TConfigure, s.Named →
    Settles (readFile malloc rounds (disk i) s) (Readable (disk i) s.keys)
      (s.read (foundIn (disk i)))

/-- The readings from the number `k` on and before the number `n` find a file. -/
def AllReadable (disk : ℕ → Option (List UInt8)) (k n : ℕ) : Prop :=
  ∀ i, k ≤ i → i < n → Readable (disk i) reloadKeys

theorem allReadable_self : AllReadable disk k k ↔ True :=
  iff_of_true (fun i hlow hhigh => absurd hhigh (by omega)) trivial

theorem allReadable_succ : AllReadable disk k (k + 1) ↔ Readable (disk k) reloadKeys := by
  constructor
  · exact fun h => h k (Nat.le_refl _) (Nat.lt_succ_self _)
  · rintro h i hlow hhigh
    obtain rfl : i = k := by omega
    exact h

theorem allReadable_add (n n' : ℕ) : AllReadable disk k (k + n + n') ↔
    AllReadable disk k (k + n) ∧ AllReadable disk (k + n) (k + n + n') := by
  constructor
  · exact fun h => ⟨fun i hlow hhigh => h i hlow (by omega),
      fun i hlow hhigh => h i (by omega) hhigh⟩
  · rintro ⟨hfront, hback⟩ i hlow hhigh
    by_cases hi : i < k + n
    · exact hfront i hlow hi
    · exact hback i (by omega) hhigh

/-- An event, with the readings it brings about. -/
theorem onEvent_settles {n : ℕ} {pevent : InotifyEvent} {notice : Notice}
    (hreads : ReadsFiles malloc rounds disk n) (hs : s.Named) (hk : 0 < k)
    (hle : k + [notice].countP Notice.modifies ≤ n + 1)
    (hevent : (pevent.modifies ∧ pevent.action = cstr "pp.config") ↔ notice.modifies = true) :
    Settles (onEvent malloc rounds disk (k, readings disk s k) pevent)
      (AllReadable disk k (k + [notice].countP Notice.modifies))
      (k + [notice].countP Notice.modifies,
        readings disk s (k + [notice].countP Notice.modifies)) := by
  obtain ⟨k, rfl⟩ := Nat.exists_eq_add_one_of_ne_zero (Nat.ne_of_gt hk)
  have hkeys : (readings disk s (k + 1)).keys = reloadKeys := if_pos (readings_flagReady disk s k)
  rw [List.countP_singleton] at hle
  rw [onEvent, List.countP_singleton]
  by_cases hmodifies : notice.modifies = true
  · rw [if_pos (hevent.mpr hmodifies), if_pos hmodifies]
    rw [if_pos hmodifies] at hle
    have hread := (hreads (k + 1) (by omega) _ (readings_named disk hs (k + 1))).map
      fun configStruct => (k + 1 + 1, configStruct)
    rw [hkeys] at hread
    exact hread.of_iff allReadable_succ.symm
  · rw [if_neg fun h => hmodifies (hevent.mp h), if_neg hmodifies]
    exact (Settles.pure _).of_iff allReadable_self.symm

theorem onEvents_settles {n : ℕ} {pevents : List InotifyEvent} {notices : List Notice}
    (hreads : ReadsFiles malloc rounds disk n) (hs : s.Named) (hk : 0 < k)
    (hle : k + notices.countP Notice.modifies ≤ n + 1)
    (hevents : List.Forall₂ (fun pevent notice =>
      (pevent.modifies ∧ pevent.action = cstr "pp.config") ↔ notice.modifies = true)
      pevents notices) :
    Settles (pevents.foldlM (onEvent malloc rounds disk) (k, readings disk s k))
      (AllReadable disk k (k + notices.countP Notice.modifies))
      (k + notices.countP Notice.modifies,
        readings disk s (k + notices.countP Notice.modifies)) := by
  induction hevents generalizing k with
  | nil => exact (Settles.pure _).of_iff allReadable_self.symm
  | @cons pevent notice pevents notices hevent hevents ih =>
    have hcount : (notice :: notices).countP Notice.modifies =
        [notice].countP Notice.modifies + notices.countP Notice.modifies := by
      rw [← List.countP_append, List.singleton_append]
    rw [hcount, ← Nat.add_assoc] at hle
    rw [hcount, List.foldlM_cons, ← Nat.add_assoc]
    refine Settles.of_iff ?_ (allReadable_add _ _).symm
    exact (onEvent_settles hreads hs hk (by omega) hevent).bind (ih (by omega) hle)

theorem onReads_settles {n : ℕ} (batches : List (List Notice))
    (hreads : ReadsFiles malloc rounds disk n) (hs : s.Named) (hk : 0 < k)
    (hle : k + batches.flatten.countP Notice.modifies ≤ n + 1) :
    Settles ((batches.map fun notices => notices.flatMap Notice.bytes).foldlM
        (onRead malloc rounds disk) (k, readings disk s k))
      (AllReadable disk k (k + batches.flatten.countP Notice.modifies))
      (k + batches.flatten.countP Notice.modifies,
        readings disk s (k + batches.flatten.countP Notice.modifies)) := by
  induction batches generalizing k with
  | nil => exact (Settles.pure _).of_iff allReadable_self.symm
  | cons notices batches ih =>
    rw [List.flatten_cons, List.countP_append, ← Nat.add_assoc] at hle
    rw [List.flatten_cons, List.countP_append, List.map_cons, List.foldlM_cons, ← Nat.add_assoc]
    refine Settles.of_iff ?_ (allReadable_add _ _).symm
    exact (onEvents_settles hreads hs hk (by omega)
      (eventsOf_bytes notices (Nat.lt_succ_self _))).bind (ih (by omega) hle)

/-- The settings are those of one file, read at the start, and of another, read last. -/
structure Configured (first last : List (CString × Option CString)) (s : TConfigure) : Prop where
  once : s.completed first = s
  ALG : s.ALG = textAt last (cstr "ALG")
  SENT_TIME : s.SENT_TIME = numberAt last (cstr "SENT_TIME")
  priorities : ∀ entry ∈ s.queuesArray, entry.priority = prioritiesAt last entry.name
  sorted : s.queuesArray.Pairwise fun a b => a.priority ≤ b.priority
  named : s.Named

theorem TConfigure.Named.reloaded (h : s.Named) (last : List (CString × Option CString))
    {first : List (CString × Option CString)} (honce : s.completed first = s) :
    Configured first last (s.reloaded last) := by
  have hlength : s.queuesArray.length = 4 := by
    rw [← List.length_map (·.name), h.length_eq]
    rfl
  have hreorders : Reorders (s.queuesArray.map fun entry =>
      { entry with priority := prioritiesAt last entry.name })
      (readPriorities (prioritiesAt last) s.queuesArray) :=
    reorders (by rw [List.length_map, hlength])
  constructor
  · calc (s.reloaded last).completed first = (s.completed first).reloaded last := rfl
      _ = s.reloaded last := by rw [honce]
  · rfl
  · rfl
  · intro entry hentry
    obtain ⟨entry', -, rfl⟩ := List.mem_map.mp (hreorders.perm.mem_iff.mp hentry)
    rfl
  · exact hreorders.sorted
  · exact (readPriorities_names _ hlength).trans h

/-- Every reading replaces what the one before it found, but for what is read once. -/
theorem readings_configured (disk : ℕ → Option (List UInt8)) (hs : s.Named)
    (hready : s.flagReady = false) (k : ℕ) :
    Configured (foundIn (disk 0)) (foundIn (disk k)) (readings disk s (k + 1)) := by
  induction k with
  | zero =>
    have hcompleted : (s.completed (foundIn (disk 0))).completed (foundIn (disk 0)) =
        s.completed (foundIn (disk 0)) := rfl
    have hread : readings disk s 1 = (s.completed (foundIn (disk 0))).reloaded (foundIn (disk 0)) :=
      if_neg (by exact ne_true_of_eq_false hready)
    rw [hread]
    exact TConfigure.Named.reloaded (s := s.completed (foundIn (disk 0))) hs _ hcompleted
  | succ k ih =>
    have hread : readings disk s (k + 1 + 1) =
        (readings disk s (k + 1)).reloaded (foundIn (disk (k + 1))) :=
      if_pos (readings_flagReady disk s k)
    rw [hread]
    exact ih.named.reloaded _ ih.once

/-- However the events about the directory come, and in whatever pieces, the settings follow the
file: `ALG`, `SENT_TIME` and the priorities are those of the last reading, the rest is that of the
first one. A file that does not give every value that is asked of it is the end of the process. -/
theorem configuration_follows_file (malloc : Allocator (Cell (THashElement CString)))
    (disk : ℕ → Option (List UInt8)) (batches : List (List Notice)) (s : TConfigure)
    (hs : s.Named) (hready : s.flagReady = false) :
    let n := batches.flatten.countP Notice.modifies
    let reads := batches.map fun notices => notices.flatMap Notice.bytes
    let readable := Readable (disk 0) (reloadKeys ++ onceKeys) ∧ AllReadable disk 1 (1 + n)
    ∃ enough, ∀ rounds, enough ≤ rounds →
      (readable → ∃ s', configure malloc rounds disk reads s = .ok (1 + n, s') ∧
        Configured (foundIn (disk 0)) (foundIn (disk n)) s') ∧
      (¬readable → configure malloc rounds disk reads s = .error .fault) := by
  intro n reads readable
  obtain ⟨enough, hreads⟩ := enough_for_all (fun i => readFile_settles malloc (disk i)) n
  refine ⟨enough, fun rounds hrounds => ?_⟩
  have hall : ReadsFiles malloc rounds disk n := hreads rounds hrounds
  have hkeys : s.keys = reloadKeys ++ onceKeys := if_neg (by exact ne_true_of_eq_false hready)
  have hfirst := hall 0 (Nat.zero_le _) s hs
  rw [hkeys] at hfirst
  have hrun : Settles (configure malloc rounds disk reads s) readable
      (1 + n, readings disk s (1 + n)) :=
    hfirst.bind (onReads_settles batches hall hs Nat.one_pos (Nat.add_comm 1 n).le)
  refine ⟨fun hreadable => ⟨readings disk s (1 + n), hrun.result hreadable, ?_⟩, hrun.fault⟩
  rw [Nat.add_comm]
  exact readings_configured disk hs hready n

instance (properties : List (CString × Option CString)) (keys : List CString) :
    Decidable (Given properties keys) :=
  inferInstanceAs (Decidable (∀ key ∈ keys, (valueOf properties key).isSome = true))

instance (file : Option (List UInt8)) (keys : List CString) : Decidable (Readable file keys) :=
  inferInstanceAs (Decidable (_ ∧ _))

def settings (ALG quantum : String) : List (CString × CString) :=
  (cstr "ALG", cstr ALG) :: (cstr "QUANTUM", cstr quantum) ::
    (((reloadKeys ++ onceKeys).removeAll [cstr "ALG", cstr "QUANTUM"]).map fun key =>
      (key, cstr "1"))

def changedDisk (k : ℕ) : Option (List UInt8) :=
  some (render (if k = 0 then settings "FIFO" "3" else settings "RR" "9"))

def changed : Notice where
  wd := 1
  mask := 2
  cookie := 0
  name := some (cstr "pp.config", 6)
  noNul := by decide
  short := by decide

def unread : TConfigure :=
  ⟨[], PP.initialArray, 0, false, 0, 0, 0, 0, 0, 0, 0, []⟩

theorem configuration_follows_file_changed : ∃ rounds s',
    configure .top rounds changedDisk [changed.bytes] unread = .ok (2, s') ∧
      s'.ALG = cstr "RR" ∧ s'.quantum = 3 := by
  obtain ⟨enough, hfollows⟩ :=
    configuration_follows_file .top changedDisk [[changed]] unread (List.Perm.refl _) rfl
  have hreadable : Readable (changedDisk 0) (reloadKeys ++ onceKeys) ∧
      AllReadable changedDisk 1 2 := ⟨by decide +kernel, allReadable_succ.mpr (by decide +kernel)⟩
  obtain ⟨s', hrun, hconfigured⟩ := (hfollows enough (Nat.le_refl _)).1 hreadable
  have hquantum := congrArg TConfigure.quantum hconfigured.once
  refine ⟨enough, s', hrun, hconfigured.ALG.trans (by decide +kernel), hquantum.symm.trans ?_⟩
  exact (by decide +kernel : numberAt (foundIn (changedDisk 0)) (cstr "QUANTUM") = 3)

end Run

end ConfigFile
end Sisop

import Sisop.DictionaryRuns
import Sisop.Assignments

/-!
# Configuration files

`config_create` reads a whole file and puts the text in front of the first `=` of every line into a
dictionary. `strtok_r` takes separators in a row as one, and a line without a text is not seen.
-/

namespace Sisop

/-- `strtok_r` with one separator; the rest of the text is what `next` points to. -/
def strtok (separator : UInt8) (next : CString) : Option (CString × CString) :=
  let text := next.dropWhile (· == separator)
  if text = [] then none
  else some (text.takeWhile (· != separator), (text.dropWhile (· != separator)).tail)

/-- `while (token != NULL)`; no text has more tokens than characters. -/
def tokens (separator : UInt8) : (rounds : ℕ) → CString → List CString
  | 0, _ => []
  | rounds + 1, next =>
    match strtok separator next with
    | none => []
    | some (token, next) => token :: tokens separator rounds next

def stringSplit (text : CString) (separator : UInt8) : List CString :=
  tokens separator (text.length + 1) text

namespace ConfigFile

open Dictionary Memory

abbrev newline : UInt8 := 10

abbrev equals : UInt8 := 61

abbrev hash : UInt8 := 35

variable (malloc : Allocator (Cell (THashElement CString))) (rounds : ℕ)

/-- `add_cofiguration`. Without any token there is neither a key nor a second pointer to read. -/
def addConfiguration (line : CString) : Program (DictionaryMemory CString) Unit :=
  if stringStartsWith line [hash] then pure ()
  else
    match stringSplit line equals with
    | [] => .stop .fault
    | [key] => dictionaryPut malloc rounds key none
    | key :: value :: _ => dictionaryPut malloc rounds key (some value)

def iterateLines : List CString → Program (DictionaryMemory CString) Unit
  | [] => pure ()
  | line :: lines => do
    addConfiguration malloc rounds line
    iterateLines lines

/-- `config_create` behind its `dictionary_create`; `none` is a file that cannot be opened. A NUL in
the file ends the text. -/
def configCreate (file : Option (List UInt8)) : Program (DictionaryMemory CString) Unit :=
  match file with
  | none => pure ()
  | some content =>
    iterateLines malloc rounds (stringSplit (content.takeWhile (· != 0)) newline)

def configHasProperty (key : CString) : Program (DictionaryMemory CString) Bool :=
  dictionaryHasKey rounds key

def configGetStringValue (key : CString) : Program (DictionaryMemory CString) (Option CString) :=
  dictionaryGet rounds key

/-- `atoi` of a null pointer reads through it. -/
def configGetIntValue (key : CString) : Program (DictionaryMemory CString) Int32 := do
  let value ← configGetStringValue rounds key
  match value with
  | none => .stop .fault
  | some text => return atoi text

def configKeysAmount : Program (DictionaryMemory CString) ℤ := dictionarySize

section Tokens

variable {separator : UInt8} {run text : CString}

def fields (separator : UInt8) (text : CString) : List CString :=
  (text.splitOn separator).filter (· ≠ [])

theorem fields_separator (separator : UInt8) (text : CString) :
    fields separator (separator :: text) = fields separator text := by
  have hsplit := List.splitOn_append_cons_self_of_not_mem (List.not_mem_nil (a := separator)) text
  rw [List.nil_append] at hsplit
  rw [fields, hsplit, List.filter_cons_of_neg (by simp)]
  rfl

theorem fields_append (hrun : separator ∉ run) (hne : run ≠ []) (text : CString) :
    fields separator (run ++ separator :: text) = run :: fields separator text := by
  rw [fields, List.splitOn_append_cons_self_of_not_mem hrun, List.filter_cons_of_pos (by simpa)]
  rfl

theorem fields_singleton (hrun : separator ∉ run) (hne : run ≠ []) :
    fields separator run = [run] := by
  rw [fields, List.splitOn_eq_singleton hrun, List.filter_cons_of_pos (by simpa), List.filter_nil]

theorem fields_dropWhile (separator : UInt8) (text : CString) :
    fields separator (text.dropWhile (· == separator)) = fields separator text := by
  induction text with
  | nil => rfl
  | cons c text ih =>
    rw [List.dropWhile_cons]
    split_ifs with hc
    · rw [beq_iff_eq] at hc
      rw [ih, hc, fields_separator]
    · rfl

theorem strtok_none (h : strtok separator text = none) : fields separator text = [] := by
  rw [strtok] at h
  by_cases hnil : text.dropWhile (· == separator) = []
  · rw [← fields_dropWhile, hnil]
    rfl
  · rw [if_neg hnil] at h
    cases h

theorem strtok_some {token next : CString} (h : strtok separator text = some (token, next)) :
    fields separator text = token :: fields separator next ∧ next.length < text.length := by
  have hlength := (List.dropWhile_sublist (· == separator) (l := text)).length_le
  rw [strtok] at h
  rw [← fields_dropWhile]
  cases hfront : text.dropWhile (· == separator) with
  | nil =>
    rw [if_pos hfront] at h
    cases h
  | cons c rest =>
    rw [if_neg (by rw [hfront]; exact List.cons_ne_nil c rest), hfront] at h
    rw [hfront, List.length_cons] at hlength
    have hc : (c != separator) = true := by
      have hhead := List.head?_dropWhile_not (· == separator) text
      rw [hfront] at hhead
      simpa using hhead
    have hrest := List.takeWhile_append_dropWhile (p := (· != separator)) (l := rest)
    rw [List.takeWhile_cons_of_pos (p := (· != separator)) hc,
      List.dropWhile_cons_of_pos (p := (· != separator)) hc] at h
    obtain ⟨rfl, rfl⟩ := Prod.mk.inj (Option.some.inj h)
    have hrun : separator ∉ c :: rest.takeWhile (· != separator) := by
      intro hmem
      rcases List.mem_cons.mp hmem with rfl | hmem
      · simp at hc
      · simpa using List.mem_takeWhile_imp hmem
    cases hback : rest.dropWhile (· != separator) with
    | nil =>
      rw [hback, List.append_nil] at hrest
      rw [hrest] at hrun ⊢
      exact ⟨fields_singleton hrun (List.cons_ne_nil c rest), by simp; omega⟩
    | cons d back =>
      have hd : d = separator := by
        have hhead := List.head?_dropWhile_not (· != separator) rest
        rw [hback] at hhead
        simpa using hhead
      have hback' := (List.dropWhile_sublist (· != separator) (l := rest)).length_le
      rw [hback, hd] at hrest
      rw [hback, List.length_cons] at hback'
      refine ⟨?_, by simp; omega⟩
      conv_lhs => rw [← hrest]
      exact fields_append hrun (List.cons_ne_nil _ _) back

/-- The loop over `strtok_r` yields the fields. -/
theorem tokens_eq_fields {rounds : ℕ} (h : text.length < rounds) :
    tokens separator rounds text = fields separator text := by
  induction rounds generalizing text with
  | zero => exact absurd h (Nat.not_lt_zero _)
  | succ rounds ih =>
    rw [tokens]
    cases htoken : strtok separator text with
    | none => exact (strtok_none htoken).symm
    | some found =>
      obtain ⟨token, next⟩ := found
      obtain ⟨hfields, hlength⟩ := strtok_some htoken
      rw [hfields]
      exact congrArg (token :: ·) (ih (by omega))

theorem stringSplit_eq_fields (text : CString) (separator : UInt8) :
    stringSplit text separator = fields separator text := tokens_eq_fields (Nat.lt_succ_self _)

end Tokens

/-- What a line says; nothing when it has separators only. -/
def propertyOf (line : CString) : Option (CString × Option CString) :=
  match fields equals line with
  | [] => none
  | [key] => some (key, none)
  | key :: value :: _ => some (key, some value)

def propertyLines (lines : List CString) : List CString :=
  lines.filter fun line => !stringStartsWith line [hash]

def propertiesOf (content : List UInt8) : Option (List (CString × Option CString)) :=
  (propertyLines (fields newline (content.takeWhile (· != 0)))).mapM propertyOf

def elementOf (property : CString × Option CString) : THashElement CString :=
  ⟨property.1, dictionaryHash property.1, property.2⟩

def valueOf (properties : List (CString × Option CString)) (key : CString) : Option CString :=
  (properties.find? fun property =>
    dictionaryHash property.1 = dictionaryHash key).bind Prod.snd

section Create

variable {malloc : Allocator (Cell (THashElement CString))} {rounds : ℕ}
  {m : DictionaryMemory CString} {d : Multimap CString} {line : CString}

theorem addConfiguration_comment (h : stringStartsWith line [hash] = true) :
    addConfiguration malloc rounds line m = .ok ((), m) := by
  rw [addConfiguration, if_pos h]
  rfl

theorem addConfiguration_fault (h : stringStartsWith line [hash] = false)
    (hline : propertyOf line = none) :
    addConfiguration malloc rounds line m = .error .fault := by
  rw [addConfiguration, if_neg (by rw [h]; exact Bool.false_ne_true), stringSplit_eq_fields]
  rw [propertyOf] at hline
  rcases hfields : fields equals line with _ | ⟨key, _ | ⟨value, rest⟩⟩
  · rfl
  · rw [hfields] at hline
    cases hline
  · rw [hfields] at hline
    cases hline

theorem addConfiguration_ends {property : CString × Option CString} (hd : Represents m d)
    (h : stringStartsWith line [hash] = false) (hline : propertyOf line = some property)
    (hrounds : 2 * d.entries.length + 2 < rounds) :
    Ends (addConfiguration malloc rounds line) m fun _ m' =>
      Represents m' ⟨d.entries ++ [elementOf property], d.amount + 1⟩ := by
  obtain ⟨hamount, place, hstored⟩ := hd
  have hput : ∀ key data, (key, data) = property →
      Ends (dictionaryPut malloc rounds key data) m fun _ m' =>
        Represents m' ⟨d.entries ++ [elementOf property], d.amount + 1⟩ := by
    rintro key data rfl
    refine (dictionaryPut_ends malloc key data hstored hrounds).mono fun _ m' hm' => ?_
    exact ⟨by rw [hm'.1, hamount], hm'.2⟩
  rw [addConfiguration, if_neg (by rw [h]; exact Bool.false_ne_true), stringSplit_eq_fields]
  rw [propertyOf] at hline
  rcases hfields : fields equals line with _ | ⟨key, _ | ⟨value, rest⟩⟩
  · rw [hfields] at hline
    cases hline
  · rw [hfields] at hline
    exact hput key none (Option.some.inj hline)
  · rw [hfields] at hline
    exact hput key (some value) (Option.some.inj hline)

/-- The lines up to the end, or up to the first one without a key. -/
theorem iterateLines_ends (malloc : Allocator (Cell (THashElement CString)))
    (lines : List CString) (hd : Represents m d)
    (hrounds : 2 * (d.entries.length + lines.length) + 2 < rounds) :
    (∀ properties, (propertyLines lines).mapM propertyOf = some properties →
      Ends (iterateLines malloc rounds lines) m fun _ m' => Represents m'
        ⟨d.entries ++ properties.map elementOf, d.amount + properties.length⟩) ∧
    ((propertyLines lines).mapM propertyOf = none →
      iterateLines malloc rounds lines m = .error .fault) := by
  induction lines generalizing m d with
  | nil =>
    refine ⟨fun properties hproperties => ?_, fun hnone => (by cases hnone)⟩
    cases hproperties
    refine Ends.pure ?_
    simpa using hd
  | cons line lines ih =>
    rw [List.length_cons] at hrounds
    cases hcomment : stringStartsWith line [hash] with
    | true =>
      have hlines : propertyLines (line :: lines) = propertyLines lines :=
        List.filter_cons_of_neg (by simp [hcomment])
      obtain ⟨hends, hfault⟩ := ih hd (by omega)
      rw [hlines]
      exact ⟨fun properties hproperties =>
          Ends.bind_of_ok (addConfiguration_comment hcomment) (hends properties hproperties),
        fun hnone => (bind_of_ok (addConfiguration_comment hcomment)).trans (hfault hnone)⟩
    | false =>
      have hlines : propertyLines (line :: lines) = line :: propertyLines lines :=
        List.filter_cons_of_pos (by simp [hcomment])
      rw [hlines, List.mapM_cons]
      cases hline : propertyOf line with
      | none =>
        refine ⟨fun properties hproperties => (by cases hproperties), fun _ => ?_⟩
        exact bind_of_error (addConfiguration_fault hcomment hline)
      | some property =>
        have hput : Ends (addConfiguration malloc rounds line) m _ :=
          addConfiguration_ends hd hcomment hline (by omega)
        obtain ⟨_, m₁, hadd, hd₁⟩ := hput
        obtain ⟨hends, hfault⟩ := ih hd₁
          (by rw [List.length_append, List.length_singleton]; omega)
        cases hrest : (propertyLines lines).mapM propertyOf with
        | none =>
          refine ⟨fun properties hproperties => (by cases hproperties), fun _ => ?_⟩
          exact (bind_of_ok hadd).trans (hfault hrest)
        | some properties =>
          refine ⟨fun properties' hproperties' => ?_, fun hnone => (by cases hnone)⟩
          cases hproperties'
          refine Ends.bind_of_ok hadd ((hends properties hrest).mono fun _ m' hm' => ?_)
          rw [List.append_assoc] at hm'
          refine ⟨hm'.1.trans ?_, hm'.2⟩
          rw [List.length_cons]
          push_cast
          omega

theorem withHash_elements (properties : List (CString × Option CString)) (key : CString) :
    (withHash (dictionaryHash key) (properties.map elementOf)).bind THashElement.data =
      valueOf properties key := by
  rw [withHash, List.find?_map, valueOf, Option.bind_map]
  simp only [Function.comp_def, elementOf]
  rfl

theorem withHash_elements_isSome (properties : List (CString × Option CString)) (key : CString) :
    (withHash (dictionaryHash key) (properties.map elementOf)).isSome =
      properties.any fun property => dictionaryHash property.1 = dictionaryHash key := by
  rw [withHash, List.find?_map, Option.isSome_map, List.isSome_find?]
  simp only [Function.comp_def, elementOf]
  rfl

theorem length_of_mapM {lines : List CString} {properties : List (CString × Option CString)}
    (h : lines.mapM propertyOf = some properties) : properties.length = lines.length := by
  induction lines generalizing properties with
  | nil =>
    cases h
    rfl
  | cons line lines ih =>
    rw [List.mapM_cons] at h
    obtain ⟨property, -, hbind⟩ := Option.bind_eq_some_iff.mp h
    obtain ⟨rest, hrest, heq⟩ := Option.bind_eq_some_iff.mp hbind
    cases heq
    rw [List.length_cons, List.length_cons, ih hrest]

/-- A file is read when every line but the comments has a text that is not `=`. Behind it a key has
the value of the first line whose key has its hash. -/
theorem config_reads (malloc : Allocator (Cell (THashElement CString))) (content : List UInt8) :
    (∀ properties, propertiesOf content = some properties → ∃ enough, ∀ rounds, enough ≤ rounds →
      Ends (configCreate malloc rounds (some content)) created fun _ m =>
        configKeysAmount m = .ok (properties.length, m) ∧ ∀ key,
          configGetStringValue rounds key m = .ok (valueOf properties key, m) ∧
          configHasProperty rounds key m =
            .ok (properties.any fun p => dictionaryHash p.1 = dictionaryHash key, m)) ∧
    (propertiesOf content = none → ∃ enough, ∀ rounds, enough ≤ rounds →
      configCreate malloc rounds (some content) created = .error .fault) := by
  have hcreate : ∀ rounds, configCreate malloc rounds (some content) =
      iterateLines malloc rounds (fields newline (content.takeWhile (· != 0))) := by
    intro rounds
    rw [← stringSplit_eq_fields]
    rfl
  rw [propertiesOf]
  generalize fields newline (content.takeWhile (· != 0)) = lines at hcreate ⊢
  have hends := fun rounds (hrounds : 2 * (0 + lines.length) + 3 ≤ rounds) =>
    iterateLines_ends malloc lines represents_created (Nat.lt_of_succ_le hrounds)
  refine ⟨fun properties hproperties => ⟨2 * (0 + lines.length) + 3, fun rounds hrounds => ?_⟩,
    fun hnone => ⟨2 * (0 + lines.length) + 3, fun rounds hrounds => ?_⟩⟩
  · rw [hcreate]
    refine ((hends rounds hrounds).1 properties hproperties).mono fun _ m hm => ?_
    obtain ⟨hamount, place, hstored⟩ := hm
    rw [Multimap.empty, List.nil_append] at hstored
    have hlength : (properties.map elementOf).length < rounds := by
      have hle := (length_of_mapM hproperties).trans_le (List.length_filter_le _ lines)
      rw [List.length_map]
      omega
    refine ⟨?_, fun key => ⟨?_, ?_⟩⟩
    · have hsize : configKeysAmount m = .ok (m.root.elements_amount, m) := rfl
      rw [hsize, hamount]
      exact congrArg (fun n => Except.ok (n, m)) (Int.zero_add _)
    · rw [configGetStringValue, dictionaryGet_of_stored hstored key hlength, withHash_elements]
    · rw [configHasProperty, dictionaryHasKey_of_stored hstored key hlength,
        withHash_elements_isSome]
  · rw [hcreate]
    exact (hends rounds hrounds).2 hnone

end Create

section RoundTrip

structure Plain (pair : CString × CString) : Prop where
  key_ne : pair.1 ≠ []
  value_ne : pair.2 ≠ []
  key : ∀ c ∈ pair.1, c ≠ 0 ∧ c ≠ newline ∧ c ≠ equals
  value : ∀ c ∈ pair.2, c ≠ 0 ∧ c ≠ newline ∧ c ≠ equals
  noComment : pair.1.head? ≠ some hash

def lineOf (pair : CString × CString) : CString := pair.1 ++ equals :: pair.2

def render (pairs : List (CString × CString)) : List UInt8 :=
  pairs.flatMap fun pair => lineOf pair ++ [newline]

variable {pair : CString × CString} {pairs : List (CString × CString)}

theorem Plain.mem_lineOf (h : Plain pair) {c : UInt8} (hc : c ∈ lineOf pair) :
    c ≠ 0 ∧ c ≠ newline := by
  rw [lineOf, List.mem_append, List.mem_cons] at hc
  rcases hc with hc | rfl | hc
  · exact ⟨(h.key c hc).1, (h.key c hc).2.1⟩
  · decide
  · exact ⟨(h.value c hc).1, (h.value c hc).2.1⟩

theorem Plain.propertyOf_lineOf (h : Plain pair) :
    propertyOf (lineOf pair) = some (pair.1, some pair.2) := by
  have hkey : equals ∉ pair.1 := fun hmem => (h.key _ hmem).2.2 rfl
  have hvalue : equals ∉ pair.2 := fun hmem => (h.value _ hmem).2.2 rfl
  rw [propertyOf, lineOf, fields_append hkey h.key_ne, fields_singleton hvalue h.value_ne]

theorem Plain.no_comment (h : Plain pair) : stringStartsWith (lineOf pair) [hash] = false := by
  obtain ⟨c, rest, hkey⟩ := List.exists_cons_of_ne_nil h.key_ne
  have hhead := h.noComment
  rw [hkey, List.head?_cons] at hhead
  rw [stringStartsWith, lineOf, hkey, List.cons_append, List.isPrefixOf_cons_cons]
  have hc : (hash == c) = false := beq_eq_false_iff_ne.mpr fun heq => hhead (by rw [heq])
  rw [hc, Bool.false_and]

theorem takeWhile_render (h : ∀ pair ∈ pairs, Plain pair) :
    (render pairs).takeWhile (· != 0) = render pairs := by
  refine List.takeWhile_eq_self_iff.mpr fun c hc => ?_
  obtain ⟨pair, hpair, hmem⟩ := List.mem_flatMap.mp hc
  rw [bne_iff_ne]
  rcases List.mem_append.mp hmem with hmem | hmem
  · exact ((h pair hpair).mem_lineOf hmem).1
  · rw [List.mem_singleton.mp hmem]
    decide

theorem fields_render (h : ∀ pair ∈ pairs, Plain pair) :
    fields newline (render pairs) = pairs.map lineOf := by
  induction pairs with
  | nil => rfl
  | cons pair pairs ih =>
    have hpair := h pair List.mem_cons_self
    have hline : newline ∉ lineOf pair := fun hmem => (hpair.mem_lineOf hmem).2 rfl
    have hne : lineOf pair ≠ [] := by simp [lineOf]
    have hrender : render (pair :: pairs) = lineOf pair ++ newline :: render pairs := by
      rw [render, List.flatMap_cons, List.append_assoc]
      rfl
    rw [hrender, fields_append hline hne, ih fun p hp => h p (List.mem_cons_of_mem _ hp)]
    rfl

theorem propertiesOf_render (h : ∀ pair ∈ pairs, Plain pair) :
    propertiesOf (render pairs) = some (pairs.map fun pair => (pair.1, some pair.2)) := by
  rw [propertiesOf, takeWhile_render h, fields_render h]
  induction pairs with
  | nil => rfl
  | cons pair pairs ih =>
    have hpair := h pair List.mem_cons_self
    rw [List.map_cons, propertyLines, List.filter_cons_of_pos (by simp [hpair.no_comment]),
      List.mapM_cons, hpair.propertyOf_lineOf]
    have hrest := ih fun p hp => h p (List.mem_cons_of_mem _ hp)
    rw [propertyLines] at hrest
    rw [hrest]
    rfl

theorem find?_of_nodup {γ κ : Type} [DecidableEq κ] (f : γ → κ) {xs : List γ} {x : γ}
    (hnodup : (xs.map f).Nodup) (hx : x ∈ xs) : xs.find? (fun y => f y = f x) = some x := by
  induction xs with
  | nil => cases hx
  | cons y xs ih =>
    rw [List.map_cons, List.nodup_cons] at hnodup
    rcases List.mem_cons.mp hx with rfl | hmem
    · exact List.find?_cons_of_pos (by simp)
    · have hne : f y ≠ f x := by
        intro heq
        rw [heq] at hnodup
        exact hnodup.1 (List.mem_map_of_mem hmem)
      rw [List.find?_cons_of_neg (by simpa using hne)]
      exact ih hnodup.2 hmem

theorem find?_of_notMem {γ κ : Type} [DecidableEq κ] (f : γ → κ) {xs : List γ} {k : κ}
    (h : k ∉ xs.map f) : xs.find? (fun y => f y = k) = none := by
  refine List.find?_eq_none.mpr fun x hx heq => h ?_
  rw [← of_decide_eq_true heq]
  exact List.mem_map_of_mem hx

theorem valueOf_map (pairs : List (CString × CString)) (key : CString) :
    valueOf (pairs.map fun pair => (pair.1, some pair.2)) key =
      (pairs.find? fun pair => dictionaryHash pair.1 = dictionaryHash key).map Prod.snd := by
  rw [valueOf, List.find?_map, Option.bind_map, Option.map_eq_bind]
  simp only [Function.comp_def]

/-- With a hash of its own every key finds its value. -/
theorem valueOf_render (hdistinct : (pairs.map fun pair => dictionaryHash pair.1).Nodup)
    (hpair : pair ∈ pairs) :
    valueOf (pairs.map fun pair => (pair.1, some pair.2)) pair.1 = some pair.2 := by
  rw [valueOf_map, find?_of_nodup (fun pair : CString × CString => dictionaryHash pair.1)
    hdistinct hpair]
  rfl

theorem valueOf_absent {key : CString}
    (h : dictionaryHash key ∉ pairs.map fun pair => dictionaryHash pair.1) :
    valueOf (pairs.map fun pair => (pair.1, some pair.2)) key = none := by
  rw [valueOf_map, find?_of_notMem (fun pair : CString × CString => dictionaryHash pair.1) h]
  rfl

def digitsOf (n : ℕ) : CString := (Nat.toDigits 10 n).map fun c => c.toNat.toUInt8

theorem digitsOf_spec (n : ℕ) :
    digitsOf n ≠ [] ∧ (∀ c ∈ digitsOf n, isdigit c) ∧ digitsValue (digitsOf n) = n := by
  have hbounds : ∀ c ∈ Nat.toDigits 10 n, 48 ≤ c.toNat ∧ c.toNat ≤ 57 := by
    intro c hc
    have hdigit := Nat.isDigit_of_mem_toDigits (by decide) (by decide) hc
    simp only [Char.isDigit, Bool.and_eq_true, decide_eq_true_eq, ge_iff_le,
      UInt32.le_iff_toNat_le] at hdigit
    exact hdigit
  have hbyte : ∀ c ∈ Nat.toDigits 10 n, (c.toNat.toUInt8).toNat = c.toNat := by
    intro c hc
    have hle := (hbounds c hc).2
    rw [Nat.toUInt8, UInt8.toNat_ofNat', Nat.mod_eq_of_lt (by omega)]
  refine ⟨by simp [digitsOf], fun c hc => ?_, ?_⟩
  · obtain ⟨d, hd, rfl⟩ := List.mem_map.mp hc
    have hd' := hbounds d hd
    rw [isdigit, Bool.and_eq_true, decide_eq_true_iff, decide_eq_true_iff, UInt8.le_iff_toNat_le,
      UInt8.le_iff_toNat_le, hbyte d hd]
    exact hd'
  · have hvalue := Nat.ofDigitChars_ten_toDigits (n := n)
    rw [Nat.ofDigitChars_eq_foldl] at hvalue
    rw [digitsValue, digitsOf, List.foldl_map]
    refine (List.foldl_ext _ _ 0 fun value c hc => ?_).trans hvalue
    rw [hbyte c hc]
    rfl

/-- `%d` and `atoi`. -/
theorem atoi_decimal (n : Int32) : atoi (decimal n.toInt) = n := by
  obtain ⟨hne, hdigits, hvalue⟩ := digitsOf_spec n.toInt.natAbs
  have hlow := Int32.le_toInt n
  have hhigh := Int32.toInt_lt n
  have htake : (digitsOf n.toInt.natAbs).takeWhile isdigit = digitsOf n.toInt.natAbs :=
    List.takeWhile_eq_self_iff.mpr hdigits
  by_cases hsign : n.toInt < 0
  · have hdecimal : decimal n.toInt = 45 :: digitsOf n.toInt.natAbs := by
      rw [decimal, if_pos hsign]
      rfl
    have hstrtol : strtol (decimal n.toInt) = n.toInt := by
      rw [hdecimal, strtol, List.dropWhile_cons_of_neg (by decide)]
      dsimp only
      rw [if_pos rfl, if_pos (Or.inl rfl), htake, hvalue]
      omega
    rw [atoi, hstrtol, Int32.ofInt_toInt]
  · have hdecimal : decimal n.toInt = digitsOf n.toInt.natAbs := by
      rw [decimal, if_neg hsign]
      rfl
    rw [hdecimal, atoi_digits hne hdigits (by rw [hvalue]; omega), hvalue,
      Int.natAbs_of_nonneg (by omega), Int32.ofInt_toInt]

/-- What was written is read: every key has its value, as a text and as a number, and a key that was
not written has none, which `config_get_int_value` does not survive. -/
theorem config_round_trip (malloc : Allocator (Cell (THashElement CString)))
    (pairs : List (CString × CString)) (hplain : ∀ pair ∈ pairs, Plain pair)
    (hdistinct : (pairs.map fun pair => dictionaryHash pair.1).Nodup) :
    ∃ enough, ∀ rounds, enough ≤ rounds →
      Ends (configCreate malloc rounds (some (render pairs))) created fun _ m =>
        configKeysAmount m = .ok (pairs.length, m) ∧
        (∀ pair ∈ pairs, configGetStringValue rounds pair.1 m = .ok (some pair.2, m) ∧
          ∀ n : Int32, pair.2 = decimal n.toInt →
            configGetIntValue rounds pair.1 m = .ok (n, m)) ∧
        ∀ key, (dictionaryHash key ∉ pairs.map fun pair => dictionaryHash pair.1) →
          configGetStringValue rounds key m = .ok (none, m) ∧
            configGetIntValue rounds key m = .error .fault := by
  obtain ⟨enough, hends⟩ := (config_reads malloc (render pairs)).1 _ (propertiesOf_render hplain)
  refine ⟨enough, fun rounds hrounds => (hends rounds hrounds).mono fun _ m hm => ?_⟩
  obtain ⟨hamount, hvalues⟩ := hm
  rw [List.length_map] at hamount
  refine ⟨hamount, fun pair hpair => ?_, fun key hkey => ?_⟩
  · have hvalue := (hvalues pair.1).1
    rw [valueOf_render hdistinct hpair] at hvalue
    refine ⟨hvalue, fun n hn => ?_⟩
    rw [configGetIntValue, bind_of_ok hvalue, hn]
    exact congrArg (fun n => Except.ok (n, m)) (atoi_decimal n)
  · have hvalue := (hvalues key).1
    rw [valueOf_absent hkey] at hvalue
    refine ⟨hvalue, ?_⟩
    rw [configGetIntValue, bind_of_ok hvalue]
    rfl

def twoSettings : List (CString × CString) :=
  [(cstr "ALG", cstr "FIFO"), (cstr "QUANTUM", cstr "-3")]

theorem twoSettings_plain : ∀ pair ∈ twoSettings, Plain pair := by
  intro pair hpair
  rcases List.mem_pair.mp hpair with rfl | rfl
  · exact ⟨by decide, by decide, List.forall_iff_forall_mem.mp (by decide),
      List.forall_iff_forall_mem.mp (by decide), by decide⟩
  · exact ⟨by decide, by decide, List.forall_iff_forall_mem.mp (by decide),
      List.forall_iff_forall_mem.mp (by decide), by decide⟩

theorem config_round_trip_two : ∃ rounds, Ends
    (configCreate .top rounds (some (render twoSettings))) created fun _ m =>
      configGetStringValue rounds (cstr "ALG") m = .ok (some (cstr "FIFO"), m) ∧
      configGetIntValue rounds (cstr "QUANTUM") m = .ok (-3, m) ∧
      configGetIntValue rounds (cstr "TANT") m = .error .fault := by
  obtain ⟨enough, hends⟩ :=
    config_round_trip .top twoSettings twoSettings_plain (by decide +kernel)
  refine ⟨enough, (hends enough (Nat.le_refl _)).mono fun _ m hm => ?_⟩
  obtain ⟨-, hread, habsent⟩ := hm
  exact ⟨(hread _ List.mem_cons_self).1,
    (hread _ (List.mem_cons_of_mem _ List.mem_cons_self)).2 (-3) (by decide +kernel),
    (habsent (cstr "TANT") (by decide +kernel)).2⟩

end RoundTrip

end ConfigFile
end Sisop

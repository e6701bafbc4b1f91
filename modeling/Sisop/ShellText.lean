import Mathlib.Data.List.Basic

/-!
# Text as the tools of a shell see it

`grep` keeps the lines in which its pattern occurs and `sed 's|p||g'` erases every occurrence of
`p`. A pattern is taken character by character, a period standing for any character.
-/

namespace Sisop

abbrev Text := List Char

def fits (p c : Char) : Bool := p == '.' || p == c

def heads : Text → Text → Bool
  | [], _ => true
  | _ :: _, [] => false
  | p :: ps, c :: cs => fits p c && heads ps cs

def occurs (p : Text) : Text → Bool
  | [] => heads p []
  | c :: cs => heads p (c :: cs) || occurs p cs

/-- An unquoted empty pattern is no argument at all: `grep` then only prints its usage. -/
def grep (p : Text) (lines : List Text) : List Text :=
  if p = [] then [] else lines.filter (occurs p)

/-- The text without the occurrences of `p`, of which the first `skip` characters are the end of
one that was found before. -/
def erase (p : Text) : ℕ → Text → Text
  | _, [] => []
  | skip + 1, _ :: cs => erase p skip cs
  | 0, c :: cs => if heads p (c :: cs) then erase p (p.length - 1) cs else c :: erase p 0 cs

/-- `sed -i "s|p||g"`: an empty pattern, or one with a line break in it, is an error of the script
and the file stays as it is. -/
def sedErase (p : Text) (lines : List Text) : List Text :=
  if p = [] ∨ '\n' ∈ p then lines else lines.map (erase p 0)

/-- `sed -i '/^$/d'` -/
def sedBlank (lines : List Text) : List Text := lines.filter (· ≠ [])

/-- `${l##*c}` -/
def afterLast (c : Char) (l : Text) : Text := (l.reverse.takeWhile (· ≠ c)).reverse

/-- `${l%c*}` -/
def beforeLast (c : Char) (l : Text) : Text :=
  if c ∈ l then ((l.reverse.dropWhile (· ≠ c)).drop 1).reverse else l

/-- `$(...)` when `c` is the line break, `echo` of a list of words when it is a blank. -/
def joined (c : Char) : List Text → Text
  | [] => []
  | [l] => l
  | l :: ls => l ++ c :: joined c ls

def tr (a b : Char) (l : Text) : Text := l.map fun c => if c = a then b else c

def blank (c : Char) : Bool := c == ' ' || c == '\t' || c == '\n'

def shellWords (l : Text) : List Text := (l.splitOnP blank).filter (· ≠ [])

theorem not_blank_of_all {l : Text} (h : l.all (!blank ·) = true) : ∀ c ∈ l, blank c = false := by
  intro c hc
  have hchar := List.all_eq_true.mp h c hc
  simpa using hchar

@[simp] theorem fits_self (c : Char) : fits c c = true := by simp [fits]

theorem heads_append (p t : Text) : heads p (p ++ t) = true := by
  induction p with
  | nil => rfl
  | cons c p ih => simp only [List.cons_append, heads, fits_self, ih, Bool.and_self]

@[simp] theorem heads_self (p : Text) : heads p p = true := by
  simpa only [List.append_nil] using heads_append p []

theorem occurs_of_heads {p l : Text} (h : heads p l = true) : occurs p l = true := by
  cases l with
  | nil => exact h
  | cons c l => rw [occurs, h, Bool.true_or]

theorem occurs_append (p t : Text) : occurs p (p ++ t) = true :=
  occurs_of_heads (heads_append p t)

theorem erase_skip (p l t : Text) : erase p l.length (l ++ t) = erase p 0 t := by
  induction l with
  | nil => rfl
  | cons c l ih => rw [List.length_cons, List.cons_append, erase, ih]

/-- A line that is the pattern itself is erased to a blank one. -/
theorem erase_self {p : Text} (hp : p ≠ []) : erase p 0 p = [] := by
  obtain ⟨c, p', rfl⟩ := List.exists_cons_of_ne_nil hp
  rw [erase, if_pos (heads_self _), List.length_cons, Nat.add_sub_cancel]
  simpa only [List.append_nil, erase] using erase_skip (c :: p') p' []

theorem erase_of_not_occurs {p l : Text} (h : occurs p l = false) : erase p 0 l = l := by
  induction l with
  | nil => rfl
  | cons c l ih =>
    rw [occurs, Bool.or_eq_false_iff] at h
    rw [erase, if_neg (by rw [h.1]; exact Bool.false_ne_true), ih h.2]

theorem mem_grep {p l : Text} {lines : List Text} (hp : p ≠ []) :
    l ∈ grep p lines ↔ l ∈ lines ∧ occurs p l = true := by
  rw [grep, if_neg hp, List.mem_filter]

theorem heads_append_left {p q l : Text} (h : heads (p ++ q) l = true) : heads p l = true := by
  induction p generalizing l with
  | nil => rfl
  | cons a p ih =>
    cases l with
    | nil => exact h
    | cons b l =>
      rw [List.cons_append, heads, Bool.and_eq_true] at h
      rw [heads, h.1, ih h.2]
      rfl

theorem occurs_of_suffix {p l l' : Text} (h : occurs p l' = true) (hl : l' <:+ l) :
    occurs p l = true := by
  obtain ⟨front, rfl⟩ := hl
  induction front with
  | nil => exact h
  | cons c front ih => rw [List.cons_append, occurs, ih, Bool.or_true]

theorem exists_heads_of_occurs {p l : Text} (h : occurs p l = true) :
    ∃ l', l' <:+ l ∧ heads p l' = true := by
  induction l with
  | nil => exact ⟨[], List.suffix_rfl, h⟩
  | cons c l ih =>
    rw [occurs, Bool.or_eq_true] at h
    rcases h with h | h
    · exact ⟨c :: l, List.suffix_rfl, h⟩
    · obtain ⟨l', hsuffix, hheads⟩ := ih h
      exact ⟨l', hsuffix.trans (List.suffix_cons c l), hheads⟩

theorem occurs_append_left {p q l : Text} (h : occurs (p ++ q) l = true) : occurs p l = true := by
  obtain ⟨l', hsuffix, hheads⟩ := exists_heads_of_occurs h
  exact occurs_of_suffix (occurs_of_heads (heads_append_left hheads)) hsuffix

theorem occurs_append_right {p q l : Text} (h : occurs (p ++ q) l = true) : occurs q l = true := by
  obtain ⟨l', hsuffix, hheads⟩ := exists_heads_of_occurs h
  have hq : ∀ {p l : Text}, heads (p ++ q) l = true → occurs q l = true := by
    intro p
    induction p with
    | nil => exact occurs_of_heads
    | cons a p ih =>
      intro l hl
      cases l with
      | nil => cases hl
      | cons b l =>
        rw [List.cons_append, heads, Bool.and_eq_true] at hl
        exact occurs_of_suffix (ih hl.2) (List.suffix_cons b l)
  exact occurs_of_suffix (hq hheads) hsuffix

theorem not_occurs_nil {p : Text} (hp : p ≠ []) : occurs p [] = false := by
  obtain ⟨c, p', rfl⟩ := List.exists_cons_of_ne_nil hp
  rfl

/-- A line that is the pattern, blanked out. -/
def blankOut (p l : Text) : Text := if l = p then [] else l

theorem sedErase_eq_map {p : Text} {lines : List Text} (hp : p ≠ []) (hbreak : '\n' ∉ p)
    (hown : ∀ l ∈ lines, occurs p l = true → l = p) :
    sedErase p lines = lines.map (blankOut p) := by
  rw [sedErase, if_neg (not_or.mpr ⟨hp, hbreak⟩)]
  apply List.map_congr_left
  intro l hl
  rw [blankOut]
  by_cases hlp : l = p
  · rw [if_pos hlp, hlp, erase_self hp]
  · rw [if_neg hlp]
    apply erase_of_not_occurs
    by_contra hoccurs
    exact hlp (hown l hl (by simpa using hoccurs))

theorem sedBlank_map_blankOut (p : Text) (lines : List Text) :
    sedBlank (lines.map (blankOut p)) = (sedBlank lines).filter (· ≠ p) := by
  induction lines with
  | nil => rfl
  | cons l lines ih =>
    by_cases hlp : l = p <;> by_cases hl : l = [] <;>
      simp_all [sedBlank, blankOut]

theorem grep_map_blankOut {p q : Text} (hq : q ≠ []) (lines : List Text) :
    grep q (lines.map (blankOut p)) = (grep q lines).filter (· ≠ p) := by
  have hnil := not_occurs_nil hq
  rw [grep, grep, if_neg hq, if_neg hq]
  induction lines with
  | nil => rfl
  | cons l lines ih =>
    by_cases hlp : l = p
    · cases hoccurs : occurs q l <;> simp_all [blankOut]
    · cases hoccurs : occurs q l <;> simp_all [blankOut]

theorem sedBlank_append (lines lines' : List Text) :
    sedBlank (lines ++ lines') = sedBlank lines ++ sedBlank lines' :=
  List.filter_append _ _

theorem sedBlank_sedBlank (lines : List Text) : sedBlank (sedBlank lines) = sedBlank lines := by
  rw [sedBlank, sedBlank, List.filter_filter]
  simp only [Bool.and_self]

theorem sedBlank_filter (f : Text → Bool) (lines : List Text) :
    sedBlank (lines.filter f) = (sedBlank lines).filter f := by
  rw [sedBlank, sedBlank, List.filter_filter, List.filter_filter]
  congr 1
  funext l
  exact Bool.and_comm _ _

theorem grep_filter (q : Text) (f : Text → Bool) (lines : List Text) :
    grep q (lines.filter f) = (grep q lines).filter f := by
  rw [grep, grep]
  split
  · rfl
  · rw [List.filter_filter, List.filter_filter]
    congr 1
    funext l
    exact Bool.and_comm _ _

section Cuts

variable {c : Char} {a b : Text}

theorem takeWhile_reverse_cut (hb : c ∉ b) :
    (a ++ c :: b).reverse.takeWhile (· ≠ c) = b.reverse := by
  have hcut : (a ++ c :: b).reverse = b.reverse ++ c :: a.reverse := by simp
  rw [hcut, List.takeWhile_append_of_pos]
  · rw [List.takeWhile_cons_of_neg (by simp), List.append_nil]
  · intro d hd
    have hdc : d ≠ c := by
      rintro rfl
      exact hb (List.mem_reverse.mp hd)
    simpa using hdc

/-- A text is cut at its first `c` in one way. -/
theorem cut_inj {a' b' : Text} (ha : c ∉ a) (ha' : c ∉ a') (h : a ++ c :: b = a' ++ c :: b') :
    a = a' ∧ b = b' := by
  induction a generalizing a' with
  | nil =>
    cases a' with
    | nil => exact ⟨rfl, (List.cons.inj h).2⟩
    | cons d a' =>
      obtain ⟨rfl, -⟩ := List.cons.inj h
      exact absurd List.mem_cons_self ha'
  | cons d a ih =>
    cases a' with
    | nil =>
      obtain ⟨rfl, -⟩ := List.cons.inj h
      exact absurd List.mem_cons_self ha
    | cons d' a' =>
      obtain ⟨rfl, hrest⟩ := List.cons.inj h
      obtain ⟨rfl, rfl⟩ := ih (fun hc => ha (List.mem_cons_of_mem d hc))
        (fun hc => ha' (List.mem_cons_of_mem d hc)) hrest
      exact ⟨rfl, rfl⟩

theorem exists_joined_concat (c : Char) (ls : List Text) (l : Text) :
    ∃ front, joined c (ls ++ [l]) = front ++ l := by
  induction ls with
  | nil => exact ⟨[], rfl⟩
  | cons l' ls ih =>
    obtain ⟨front, hfront⟩ := ih
    refine ⟨l' ++ c :: front, ?_⟩
    cases hrest : ls ++ [l] with
    | nil => simp at hrest
    | cons x xs =>
      rw [hrest] at hfront
      have hstep : joined c (l' :: x :: xs) = l' ++ c :: joined c (x :: xs) := rfl
      rw [List.cons_append, hrest, hstep, hfront, List.append_assoc, List.cons_append]

theorem tr_of_not_mem {a b : Char} {l : Text} (h : a ∉ l) : tr a b l = l := by
  rw [tr, List.map_congr_left (g := id), List.map_id]
  intro c hc
  have hne : c ≠ a := by
    rintro rfl
    exact h hc
  rw [if_neg hne, id]

theorem tr_append (a b : Char) (l l' : Text) : tr a b (l ++ l') = tr a b l ++ tr a b l' :=
  List.map_append

theorem shellWords_word {w : Text} (hne : w ≠ []) (hw : ∀ c ∈ w, blank c = false) :
    shellWords w = [w] := by
  rw [shellWords, List.splitOnP_eq_singleton hw]
  simp [hne]

theorem shellWords_cons_word {w : Text} (hne : w ≠ []) (hw : ∀ c ∈ w, blank c = false)
    (rest : Text) : shellWords (w ++ ' ' :: rest) = w :: shellWords rest := by
  rw [shellWords, List.splitOnP_append_cons_of_forall_mem hw ' ' (by rfl) rest,
    List.filter_cons_of_pos (by simpa using hne), shellWords]

theorem afterLast_cut (hb : c ∉ b) : afterLast c (a ++ c :: b) = b := by
  rw [afterLast, takeWhile_reverse_cut hb, List.reverse_reverse]

end Cuts

end Sisop

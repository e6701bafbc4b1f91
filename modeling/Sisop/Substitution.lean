import Sisop.ShellText

/-!
# Global substitution

`sed 's|p|q|g'` replaces the occurrences of one text by another, from left to right. For patterns
without a period, that begin with the same character and do not repeat it, a substitution is undone
by the opposite one where the new text did not occur before; and the words of a line keep their
places.
-/

namespace Sisop

/-- The text with `q` for every occurrence of `p`; the first `skip` characters are the end of one
that was found before. -/
def substitute (p q : Text) : ℕ → Text → Text
  | _, [] => []
  | skip + 1, _ :: cs => substitute p q skip cs
  | 0, c :: cs =>
    if heads p (c :: cs) then q ++ substitute p q (p.length - 1) cs
    else c :: substitute p q 0 cs

variable {p q l t w : Text} {s c : Char} {cs : Text}

theorem exists_append_of_heads (hp : '.' ∉ p) (h : heads p l = true) : ∃ t, l = p ++ t := by
  induction p generalizing l with
  | nil => exact ⟨l, rfl⟩
  | cons a p ih =>
    cases l with
    | nil => cases h
    | cons b l =>
      rw [heads, Bool.and_eq_true] at h
      obtain ⟨t, rfl⟩ := ih (fun hmem => hp (List.mem_cons_of_mem a hmem)) h.2
      have hperiod : a ≠ '.' := by
        rintro rfl
        exact hp List.mem_cons_self
      have hab : a = b := by simpa [fits, hperiod] using h.1
      exact ⟨t, by rw [hab, List.cons_append]⟩

theorem substitute_skip (p q l t : Text) :
    substitute p q l.length (l ++ t) = substitute p q 0 t := by
  induction l with
  | nil => rfl
  | cons c l ih => rw [List.length_cons, List.cons_append, substitute, ih]

theorem substitute_found (hp : p ≠ []) (q t : Text) :
    substitute p q 0 (p ++ t) = q ++ substitute p q 0 t := by
  obtain ⟨c, p', rfl⟩ := List.exists_cons_of_ne_nil hp
  rw [List.cons_append, substitute, ← List.cons_append, if_pos (heads_append _ _),
    List.length_cons, Nat.add_sub_cancel, substitute_skip]

theorem substitute_kept (q : Text) (h : heads p (c :: cs) = false) :
    substitute p q 0 (c :: cs) = c :: substitute p q 0 cs := by
  rw [substitute, if_neg (by rw [h]; exact Bool.false_ne_true)]

theorem substitute_of_not_occurs (q : Text) (h : occurs p l = false) : substitute p q 0 l = l := by
  induction l with
  | nil => rfl
  | cons c l ih =>
    rw [occurs, Bool.or_eq_false_iff] at h
    rw [substitute_kept q h.1, ih h.2]

/-- From left to right: an occurrence, or a character where none begins. -/
theorem substitute_induction (hne : p ≠ []) (hp : '.' ∉ p) {motive : Text → Prop}
    (nil : motive []) (found : ∀ t, motive t → motive (p ++ t))
    (kept : ∀ c cs, heads p (c :: cs) = false → motive cs → motive (c :: cs)) (l : Text) :
    motive l := by
  generalize hn : l.length = n
  induction n using Nat.strongRecOn generalizing l with
  | ind n ih =>
    cases l with
    | nil => exact nil
    | cons c cs =>
      cases hheads : heads p (c :: cs) with
      | false => exact kept c cs hheads (ih cs.length (by simp [← hn]) cs rfl)
      | true =>
        obtain ⟨t, heq⟩ := exists_append_of_heads hp hheads
        rw [heq] at hn ⊢
        have hlt : t.length < n := by
          have hpos : 0 < p.length := List.length_pos_iff.mpr hne
          rw [← hn, List.length_append]
          omega
        exact found t (ih t.length hlt t rfl)

section Swap

variable (hp : '.' ∉ s :: p)

include hp

theorem head?_substitute (q l : Text) :
    (substitute (s :: p) (s :: q) 0 l).head? = l.head? := by
  induction l using substitute_induction (List.cons_ne_nil s p) hp with
  | nil => rfl
  | found t ih =>
    rw [substitute_found (List.cons_ne_nil s p)]
    rfl
  | kept c cs h ih =>
    rw [substitute_kept _ h]
    rfl

/-- What does not contain the first character stands at the head of the new text if and only if
it stood at that of the old one. -/
theorem heads_substitute (hs : s ∉ w) (hw : '.' ∉ w) (q l : Text) :
    heads w (substitute (s :: p) (s :: q) 0 l) = heads w l := by
  induction w generalizing l with
  | nil =>
    cases l <;> simp [heads]
  | cons a w ih =>
    rw [List.mem_cons, not_or] at hs hw
    cases l with
    | nil => rfl
    | cons c cs =>
      cases hheads : heads (s :: p) (c :: cs) with
      | false =>
        rw [substitute_kept _ hheads, heads, heads, ih hs.2 hw.2]
      | true =>
        obtain ⟨t, heq⟩ := exists_append_of_heads hp hheads
        rw [heq, substitute_found (List.cons_ne_nil s p)]
        have hfits : fits a s = false := by simp [fits, Ne.symm hs.1, Ne.symm hw.1]
        rw [List.cons_append, List.cons_append, heads, heads, hfits, Bool.false_and,
          Bool.false_and]

/-- The opposite substitution undoes one, where the new text did not occur. -/
theorem substitute_undone (hs : s ∉ q) (hq : '.' ∉ s :: q) (h : occurs (s :: q) l = false) :
    substitute (s :: q) (s :: p) 0 (substitute (s :: p) (s :: q) 0 l) = l := by
  induction l using substitute_induction (List.cons_ne_nil s p) hp with
  | nil => rfl
  | found t ih =>
    have hrest : occurs (s :: q) t = false := by
      by_contra hoccurs
      have hsuffix := occurs_of_suffix (by simpa using hoccurs) (List.suffix_append (s :: p) t)
      rw [hsuffix] at h
      cases h
    rw [substitute_found (List.cons_ne_nil s p), substitute_found (List.cons_ne_nil s q), ih hrest]
  | kept c cs hkept ih =>
    rw [occurs, Bool.or_eq_false_iff] at h
    have hheads : heads (s :: q) (c :: substitute (s :: p) (s :: q) 0 cs) = false := by
      have hold := h.1
      rw [heads] at hold ⊢
      rw [heads_substitute hp hs fun hmem => hq (List.mem_cons_of_mem s hmem)]
      exact hold
    rw [substitute_kept _ hkept, substitute_kept _ hheads, ih h.2]

end Swap

theorem fits_of_ne {a : Char} (hperiod : a ≠ '.') (h : a ≠ s) : fits a s = false := by
  simp [fits, hperiod, h]

/-- Nothing that begins before an `s` reaches beyond it. -/
theorem heads_append_cons (hs : s ∉ p) (hp : '.' ∉ p) (w t : Text) :
    heads p (w ++ s :: t) = heads p w := by
  induction p generalizing w with
  | nil => cases w <;> simp [heads]
  | cons a p ih =>
    rw [List.mem_cons, not_or] at hs hp
    cases w with
    | nil =>
      change (fits a s && heads p t) = false
      rw [fits_of_ne (Ne.symm hp.1) (Ne.symm hs.1), Bool.false_and]
    | cons c w => rw [List.cons_append, heads, heads, ih hs.2 hp.2]

theorem substitute_append (hs : s ∉ p) (hp : '.' ∉ p) (q : Text)
    (h : occurs (s :: p) w = false) (t : Text) :
    substitute (s :: p) q 0 (w ++ s :: t) = w ++ substitute (s :: p) q 0 (s :: t) := by
  induction w with
  | nil => rfl
  | cons c w ih =>
    rw [occurs, Bool.or_eq_false_iff] at h
    have hheads : heads (s :: p) (c :: (w ++ s :: t)) = false := by
      have hown := h.1
      rw [heads] at hown ⊢
      rw [heads_append_cons hs hp]
      exact hown
    rw [List.cons_append, substitute_kept _ hheads, ih h.2, List.cons_append]

section Words

variable {f : Char → Bool} {word a : Text} {d : Char}

/-- The pattern is a word and something behind it; `f` holds of the characters of words. -/
structure WordPattern (f : Char → Bool) (s : Char) (word : Text) (d : Char) (a : Text) : Prop where
  literal : '.' ∉ s :: (word ++ d :: a)
  word : ∀ c ∈ s :: word, f c = true
  stop : f d = false

namespace WordPattern

/-- The first word of a text stays. -/
theorem takeWhile_substitute (h : WordPattern f s word d a) (b l : Text) :
    (substitute (s :: (word ++ d :: a)) (s :: (word ++ d :: b)) 0 l).takeWhile f =
      l.takeWhile f := by
  have hcut : ∀ rest : Text, (s :: (word ++ d :: rest)).takeWhile f = s :: word := by
    intro rest
    rw [← List.cons_append, List.takeWhile_append_of_pos h.word,
      List.takeWhile_cons_of_neg (by simp [h.stop]), List.append_nil]
  induction l using substitute_induction (List.cons_ne_nil s (word ++ d :: a)) h.literal with
  | nil => rfl
  | found t ih =>
    have hlong : ∀ rest t : Text,
        s :: (word ++ d :: rest) ++ t = s :: (word ++ d :: (rest ++ t)) := by simp
    rw [substitute_found (List.cons_ne_nil _ _), hlong, hlong, hcut, hcut]
  | kept c cs hkept ih =>
    rw [substitute_kept _ hkept, List.takeWhile_cons, List.takeWhile_cons, ih]

/-- A first word that is too short is not the one of the pattern. -/
theorem substitute_short (h : WordPattern f s word d a) (q : Text) {u r : Text}
    (hu : ∀ c ∈ u, f c = true) (hlength : u.length < (s :: word).length)
    (hr : ∀ c ∈ r.head?, f c = false) :
    substitute (s :: (word ++ d :: a)) q 0 (u ++ r) =
      u ++ substitute (s :: (word ++ d :: a)) q 0 r := by
  induction u with
  | nil => rfl
  | cons c u ih =>
    have hheads : heads (s :: (word ++ d :: a)) (c :: (u ++ r)) = false := by
      by_contra hheads
      obtain ⟨t, heq⟩ := exists_append_of_heads h.literal (by simpa using hheads)
      have heq : (c :: u) ++ r = (s :: word) ++ (d :: a ++ t) := by simpa using heq
      have hget := congrArg (·[(c :: u).length]?) heq
      rw [List.getElem?_append_left hlength, List.getElem?_append_right (Nat.le_refl _),
        Nat.sub_self, List.getElem?_eq_getElem hlength, ← List.head?_eq_getElem?] at hget
      have hword := h.word _ (List.getElem_mem hlength)
      rw [hr _ hget] at hword
      cases hword
    rw [List.cons_append, substitute_kept _ hheads, List.cons_append,
      ih (fun c' hc' => hu c' (List.mem_cons_of_mem c hc')) (by simp at hlength ⊢; omega)]

end WordPattern

/-- Where `f` holds of other characters only, the substitution begins behind them. -/
theorem dropWhile_substitute {q : Text} (hp : '.' ∉ s :: p) (hs : f s = false) (l : Text) :
    (substitute (s :: p) (s :: q) 0 l).dropWhile f =
      substitute (s :: p) (s :: q) 0 (l.dropWhile f) := by
  induction l with
  | nil => rfl
  | cons c cs ih =>
    cases hc : f c with
    | true =>
      have hheads : heads (s :: p) (c :: cs) = false := by
        by_contra hheads
        obtain ⟨t, heq⟩ := exists_append_of_heads hp (by simpa using hheads)
        obtain ⟨rfl, -⟩ := List.cons.inj heq
        rw [hs] at hc
        cases hc
      rw [substitute_kept _ hheads, List.dropWhile_cons_of_pos hc, List.dropWhile_cons_of_pos hc,
        ih]
    | false =>
      have hhead := head?_substitute hp q (c :: cs)
      rw [List.dropWhile_cons_of_neg (by simp [hc])]
      cases hsub : substitute (s :: p) (s :: q) 0 (c :: cs) with
      | nil => rfl
      | cons c' cs' =>
        rw [hsub] at hhead
        obtain rfl : c' = c := Option.some.inj hhead
        rw [List.dropWhile_cons_of_neg (by simp [hc])]

end Words

end Sisop

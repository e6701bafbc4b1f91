import Mathlib.Algebra.Order.BigOperators.Group.Finset
import Mathlib.Data.List.DropRight

/-!
# C strings

A string is the list of its bytes in front of the terminating NUL. `charAt` is the read of one
character through a pointer: the index of the terminator still reads `'\0'`, anything further is
outside the string. The functions keep the names of the C library and of the repository's
`commons/string.c`.
-/

namespace Sisop

abbrev CString := List UInt8

def cstr (s : String) : CString := s.toList.flatMap String.utf8EncodeChar

def charAt (s : CString) (i : ℕ) : Option UInt8 := if i = s.length then some 0 else s[i]?

def isblank (c : UInt8) : Bool := c == 32 || c == 9

def isspace (c : UInt8) : Bool := c == 32 || (9 ≤ c && c ≤ 13)

def isdigit (c : UInt8) : Bool := 48 ≤ c && c ≤ 57

def strlen (block : List UInt8) : Option ℕ := block.findIdx? (· == 0)

def stringStartsWith (text begin : CString) : Bool := begin.isPrefixOf text

def stringEndsWith (text ending : CString) : Bool := ending.isSuffixOf text

def stringTrimLeft (text : CString) : CString := text.dropWhile isblank

def stringTrimRight (text : CString) : CString := text.rdropWhile isspace

def stringTrim (text : CString) : CString := stringTrimRight (stringTrimLeft text)

def digitsValue (digits : CString) : ℕ := digits.foldl (fun n c => 10 * n + (c.toNat - 48)) 0

/-- `strtol` in base ten, saturating at the bounds of `long`. -/
def strtol (s : CString) : ℤ :=
  match s.dropWhile isspace with
  | [] => 0
  | c :: rest =>
    let magnitude : ℤ :=
      digitsValue ((if c = 45 ∨ c = 43 then rest else c :: rest).takeWhile isdigit)
    max (-2 ^ 63) (min (2 ^ 63 - 1) (if c = 45 then -magnitude else magnitude))

def atoi (s : CString) : Int32 := Int32.ofInt (strtol s)

def decimal (n : ℤ) : CString :=
  (if n < 0 then [45] else []) ++ (Nat.toDigits 10 n.natAbs).map (fun c => c.toNat.toUInt8)

theorem strlen_append_zero (s : CString) (hs : 0 ∉ s) (junk : List UInt8) :
    strlen (s ++ 0 :: junk) = some s.length := by
  have hnone : s.findIdx? (· == 0) = none := by
    rw [List.findIdx?_eq_none_iff]
    intro c hc
    simp only [beq_eq_false_iff_ne, ne_eq]
    rintro rfl
    exact hs hc
  simp [strlen, List.findIdx?_append, hnone, List.findIdx?_cons]

theorem strlen_isSome_iff (block : List UInt8) : (strlen block).isSome ↔ 0 ∈ block := by
  simp [strlen, List.findIdx?_isSome]

theorem strlen_lt {block : List UInt8} {n : ℕ} (h : strlen block = some n) :
    n < block.length := by
  rw [strlen, List.findIdx?_eq_some_iff_findIdx_eq] at h
  exact h.1

example : atoi (cstr " -12x") = -12 := by decide
example : stringTrim (cstr "  a=1 \n") = cstr "a=1" := by decide
example : decimal (-120) = cstr "-120" := by decide

end Sisop

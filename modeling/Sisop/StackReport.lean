import Sisop.Operations

/-!
# The stack in a report

`stackStructureMsg` appends one line for every saved call to a block that it reallocates. What it
copies, what it allocates and where it writes come from `tmp_size`, a `uint16_t` that is never
set back. A copy that leaves `aux` or the block has no result.
-/

namespace Sisop

def frameLine (element : TStack) : CString :=
  decimal (element.linecall + 1) ++ cstr "," ++ element.functionName ++ cstr "\n"

structure MessageBuffer where
  msg : Block UInt8
  offset : ℕ
  tmpSize : ℕ

/-- One round of the loop; `aux` is a block of its own. -/
def appendFrame (b : MessageBuffer) (element : TStack) : Option MessageBuffer := do
  let aux := Block.filledTo (frameLine element ++ [0]) 0
  let tmpSize := uint16 (b.tmpSize + ((frameLine element).length + 1))
  let bytes ← aux.load 0 tmpSize
  let msg ← (b.msg.realloc (b.offset + tmpSize)).store b.offset bytes
  return ⟨msg, uint16 (b.offset + tmpSize + (2 ^ 16 - 1)), tmpSize⟩

def stackStructureMsg (stack : List TStack) : Option (Block UInt8) :=
  let listSize := uint16 stack.length
  if 0 < listSize then
    ((stack.take listSize).foldlM appendFrame ⟨[], 0, 0⟩).map (·.msg)
  else some [some 0]

def stackReport (stack : List TStack) : CString := stack.flatMap frameLine

def ReportsStack (stack : List TStack) : Prop :=
  ∃ msg, stackStructureMsg stack = some msg ∧
    msg.load 0 ((stackReport stack).length + 1) = some (stackReport stack ++ [0])

/-- At most one call, and a line for it that fits a `uint16_t` with its NUL. -/
def FitsOneFrame (stack : List TStack) : Prop :=
  stack.length ≤ 1 ∧ ∀ element ∈ stack, (frameLine element).length + 1 < 2 ^ 16

theorem three_le_length_frameLine (element : TStack) : 3 ≤ (frameLine element).length := by
  have hdigits : 0 < (Nat.toDigits 10 (element.linecall + 1 : ℤ).natAbs).length :=
    Nat.length_toDigits_pos
  have hcomma : (cstr ",").length = 1 := rfl
  have hnewline : (cstr "\n").length = 1 := rfl
  simp only [frameLine, decimal, List.length_append, List.length_map, hcomma, hnewline]
  omega

theorem length_stackReport_append (front back : List TStack) :
    (stackReport (front ++ back)).length =
      (stackReport front).length + (stackReport back).length := by
  rw [stackReport, List.flatMap_append, List.length_append]
  rfl

theorem length_stackReport_cons (element : TStack) (stack : List TStack) :
    (stackReport (element :: stack)).length =
      (frameLine element).length + (stackReport stack).length := by
  rw [stackReport, List.flatMap_cons, List.length_append]
  rfl

theorem three_mul_length_le (stack : List TStack) :
    3 * stack.length ≤ (stackReport stack).length := by
  induction stack with
  | nil => exact Nat.zero_le _
  | cons element stack ih =>
    have hline := three_le_length_frameLine element
    rw [length_stackReport_cons, List.length_cons]
    omega

variable {b b' : MessageBuffer} {element : TStack} {stack : List TStack}

/-- What a round that stays inside `aux` makes of the three variables. -/
theorem appendFrame_eq_some (h : appendFrame b element = some b') :
    b'.tmpSize = uint16 (b.tmpSize + ((frameLine element).length + 1)) ∧
      b'.tmpSize ≤ (frameLine element).length + 1 ∧
      b'.offset = uint16 (b.offset + b'.tmpSize + (2 ^ 16 - 1)) ∧
      b'.msg.length = b.offset + b'.tmpSize ∧
      ∃ bytes : List UInt8, bytes.length = b'.tmpSize ∧
        (b.msg.realloc (b.offset + b'.tmpSize)).store b.offset bytes = some b'.msg := by
  obtain ⟨bytes, hbytes, h⟩ := Option.bind_eq_some_iff.mp h
  obtain ⟨msg, hmsg, h⟩ := Option.bind_eq_some_iff.mp h
  cases h
  have hlength := Block.length_store hmsg
  rw [Block.length_realloc] at hlength
  rw [Block.load] at hbytes
  split_ifs at hbytes with hle
  have hcopied := Block.length_contents hbytes
  simp only [Block.length_filledTo, List.length_append, List.length_singleton, Nat.add_zero,
    Nat.zero_add, List.length_take, List.length_drop, Nat.sub_zero] at hle hcopied
  refine ⟨rfl, hle, rfl, hlength, bytes, ?_, hmsg⟩
  rw [hcopied]
  exact Nat.min_eq_left hle

theorem appendFrame_first (h : (frameLine element).length + 1 < 2 ^ 16) :
    ∃ b', appendFrame ⟨[], 0, 0⟩ element = some b' ∧
      b'.msg = Block.filledTo (frameLine element ++ [0]) 0 := by
  have htmp : uint16 (0 + ((frameLine element).length + 1)) = (frameLine element).length + 1 := by
    rw [Nat.zero_add]
    exact uint16_of_lt h
  have hlength : (frameLine element ++ [0]).length = (frameLine element).length + 1 := by simp
  have hload : (Block.filledTo (frameLine element ++ [0]) 0).load 0
      ((frameLine element).length + 1) = some (frameLine element ++ [0]) := by
    rw [Block.load_filledTo _ _ _ _ (by rw [hlength, Nat.zero_add]), List.drop_zero,
      List.take_of_length_le hlength.le]
  have hstore : (Block.realloc ([] : Block UInt8) (0 + ((frameLine element).length + 1))).store 0
      (frameLine element ++ [0]) = some (Block.filledTo (frameLine element ++ [0]) 0) := by
    rw [show Block.realloc ([] : Block UInt8) (0 + ((frameLine element).length + 1)) =
      Block.malloc ((frameLine element).length + 1) by simp [Block.realloc, Block.malloc]]
    rw [Block.store_malloc _ _ hlength.le, hlength, Nat.sub_self]
  rw [appendFrame]
  dsimp only
  rw [htmp, bind_of_eq_some hload, bind_of_eq_some hstore]
  exact ⟨_, rfl, rfl⟩

theorem foldlM_head {init : MessageBuffer} {rest : List TStack}
    (h : (element :: rest).foldlM appendFrame init = some b') :
    ∃ b, appendFrame init element = some b ∧ rest.foldlM appendFrame b = some b' := by
  rw [List.foldlM_cons] at h
  exact Option.bind_eq_some_iff.mp h

theorem foldlM_concat {init : MessageBuffer} {front : List TStack}
    (h : (front ++ [element]).foldlM appendFrame init = some b') :
    ∃ b, front.foldlM appendFrame init = some b ∧ appendFrame b element = some b' := by
  rw [List.foldlM_append] at h
  obtain ⟨b, hb, h⟩ := Option.bind_eq_some_iff.mp h
  obtain ⟨b'', hb'', h⟩ := foldlM_head h
  cases h
  exact ⟨b, hb, hb''⟩

theorem offset_lt {front : List TStack}
    (h : front.foldlM appendFrame ⟨[], 0, 0⟩ = some b) : b.offset < 2 ^ 16 := by
  rcases List.eq_nil_or_concat front with rfl | ⟨front, element, rfl⟩
  · cases h
    decide
  · rw [List.concat_eq_append] at h
    obtain ⟨b₀, -, hb⟩ := foldlM_concat h
    rw [(appendFrame_eq_some hb).2.2.1]
    exact uint16_lt _

/-- The last line is written in front of position `2 ^ 16`, so all lines but the last one have to
end there. -/
theorem front_le {front : List TStack} (h : front.foldlM appendFrame ⟨[], 0, 0⟩ = some b)
    (hb : appendFrame b element = some b') {text : CString} {n : ℕ}
    (hload : b'.msg.load 0 (n + (frameLine element).length + 1) = some text) : n < 2 ^ 16 := by
  obtain ⟨-, htmp, -, hlength, -⟩ := appendFrame_eq_some hb
  have hoffset := offset_lt h
  rw [Block.load] at hload
  split_ifs at hload with hle
  omega

/-- Two lines do not fit: `tmp_size` still counts the first one when the second is copied. -/
theorem not_two {first last : TStack} {b₁ b₂ : MessageBuffer} {text : CString}
    (h₁ : appendFrame ⟨[], 0, 0⟩ first = some b₁) (h₂ : appendFrame b₁ last = some b₂)
    (hload : b₂.msg.load 0 ((frameLine first).length + (frameLine last).length + 1) =
      some text) : False := by
  have hfold : [first].foldlM appendFrame ⟨[], 0, 0⟩ = some b₁ := by simpa using h₁
  have hfirst := front_le hfold h₂ hload
  obtain ⟨htmp₁, -, hoffset₁, hlength₁, -⟩ := appendFrame_eq_some h₁
  obtain ⟨htmp₂, hle₂, -, hlength₂, bytes, -, hstore⟩ := appendFrame_eq_some h₂
  have hcell := Block.head_of_load hload
  have hend : (frameLine first).length + (frameLine last).length + 1 ≤ b₂.msg.length := by
    rw [Block.load] at hload
    split_ifs at hload with hle
    omega
  rw [uint16] at htmp₁ hoffset₁ htmp₂
  dsimp only at htmp₁ hoffset₁ hlength₁
  by_cases hwrap : (frameLine first).length + 1 < 2 ^ 16
  · omega
  · -- the first copy is empty, the second one begins at the last offset, and nobody writes cell 0
    have hempty : b₁.msg = [] := List.length_eq_zero_iff.mp (by omega)
    have hoffset : b₁.offset = 2 ^ 16 - 1 := by omega
    rw [Block.head_store hstore (by omega), hempty, hoffset] at hcell
    exact hcell (by simp [Block.realloc])

/-- With three lines in the report the first two would have to be as long as all but the last. -/
theorem not_three {first second last : TStack} {rest : List TStack} {b b' : MessageBuffer}
    {text : CString}
    (h : (first :: second :: rest).foldlM appendFrame ⟨[], 0, 0⟩ = some b)
    (hlast : appendFrame b last = some b')
    (hload : b'.msg.load 0 ((stackReport (first :: second :: rest)).length +
      (frameLine last).length + 1) = some text) : False := by
  have hfront := front_le h hlast hload
  have hrest := three_mul_length_le rest
  have hfirst := three_le_length_frameLine first
  have hsecond := three_le_length_frameLine second
  have hend : (stackReport (first :: second :: rest)).length + (frameLine last).length + 1 ≤
      b'.msg.length := by
    rw [Block.load] at hload
    split_ifs at hload with hle
    omega
  obtain ⟨b₁, h₁, h⟩ := foldlM_head h
  obtain ⟨b₂, h₂, h⟩ := foldlM_head h
  obtain ⟨htmp₁, -, hoffset₁, -⟩ := appendFrame_eq_some h₁
  obtain ⟨htmp₂, hle₂, hoffset₂, -⟩ := appendFrame_eq_some h₂
  obtain ⟨-, hle, -, hlength, -⟩ := appendFrame_eq_some hlast
  simp only [length_stackReport_cons] at hfront hend
  rw [uint16] at htmp₁ hoffset₁ htmp₂ hoffset₂
  dsimp only at htmp₁ hoffset₁
  obtain rfl : rest = [] := List.length_eq_zero_iff.mp (by omega)
  cases h
  have hnil : (stackReport []).length = 0 := rfl
  have htmp₁' : b₁.tmpSize = (frameLine first).length + 1 := by omega
  have hoffset₁' : b₁.offset = (frameLine first).length := by omega
  have htmp₂' : b.tmpSize + 2 ^ 16 = b₁.tmpSize + ((frameLine second).length + 1) := by omega
  have hoffset₂' : b.offset ≤ (frameLine first).length := by omega
  omega

theorem fitsOneFrame_of_reports {front : List TStack} {last : TStack} {b b' : MessageBuffer}
    {text : CString} (h : front.foldlM appendFrame ⟨[], 0, 0⟩ = some b)
    (hlast : appendFrame b last = some b')
    (hload : b'.msg.load 0 ((stackReport (front ++ [last])).length + 1) = some text) :
    FitsOneFrame (front ++ [last]) := by
  have hone : (stackReport [last]).length = (frameLine last).length := by
    rw [length_stackReport_cons]
    rfl
  rw [length_stackReport_append, hone] at hload
  rcases front with _ | ⟨first, _ | ⟨second, rest⟩⟩
  · refine ⟨le_rfl, fun element helement => ?_⟩
    rw [List.mem_singleton.mp helement]
    obtain ⟨htmp, -, -, hlength, -⟩ := appendFrame_eq_some hlast
    cases h
    have hlt := uint16_lt (0 + ((frameLine last).length + 1))
    have hnil : (stackReport []).length = 0 := rfl
    rw [Block.load] at hload
    split_ifs at hload with hle
    dsimp only at htmp hlength
    omega
  · obtain ⟨b₁, h₁, h⟩ := foldlM_head h
    cases h
    rw [length_stackReport_cons] at hload
    exact (not_two h₁ hlast hload).elim
  · exact (not_three h hlast hload).elim

/-- The counter of the loop is a `uint16_t` as well, and the lines it leaves out do not fit. -/
theorem length_lt_of_reports {msg : Block UInt8} {text : CString}
    (h : ((stack.take (uint16 stack.length)).foldlM appendFrame ⟨[], 0, 0⟩).map (·.msg) = some msg)
    (hload : msg.load 0 ((stackReport stack).length + 1) = some text) :
    stack.length < 2 ^ 16 := by
  have hsplit := length_stackReport_append (stack.take (uint16 stack.length))
    (stack.drop (uint16 stack.length))
  have hrest := three_mul_length_le (stack.drop (uint16 stack.length))
  rw [List.take_append_drop] at hsplit
  rw [List.length_drop, uint16] at hrest
  obtain ⟨b', hb', rfl⟩ := Option.map_eq_some_iff.mp h
  rcases List.eq_nil_or_concat (stack.take (uint16 stack.length)) with hnil | ⟨front, last, heq⟩
  · rw [hnil] at hb'
    cases hb'
    rw [Block.load] at hload
    split_ifs at hload with hle
    exact absurd hle (by simp)
  · rw [List.concat_eq_append] at heq
    rw [heq, length_stackReport_append, length_stackReport_cons] at hsplit
    rw [heq] at hb'
    obtain ⟨b, hb, hlast⟩ := foldlM_concat hb'
    have hle : (stackReport front).length +
        (stackReport (stack.drop (uint16 stack.length))).length < 2 ^ 16 := by
      have hnil : (stackReport []).length = 0 := rfl
      have hall : (stackReport stack).length = (stackReport front).length +
          (stackReport (stack.drop (uint16 stack.length))).length + (frameLine last).length := by
        omega
      rw [hall] at hload
      exact front_le hb hlast hload
    rw [uint16] at hle
    omega

/-- A block holds the report of a stack exactly when the stack has at most one call and the line
for it fits. -/
theorem stack_report_whole_iff (stack : List TStack) :
    ReportsStack stack ↔ FitsOneFrame stack := by
  constructor
  · rintro ⟨msg, hmsg, hload⟩
    simp only [stackStructureMsg] at hmsg
    split_ifs at hmsg with hpos
    · rw [uint16_of_lt (length_lt_of_reports hmsg hload), List.take_length] at hmsg
      obtain ⟨b', hb', rfl⟩ := Option.map_eq_some_iff.mp hmsg
      rcases List.eq_nil_or_concat stack with rfl | ⟨front, last, rfl⟩
      · exact absurd hpos (by decide)
      · rw [List.concat_eq_append] at hb' hload ⊢
        obtain ⟨b, hb, hlast⟩ := foldlM_concat hb'
        exact fitsOneFrame_of_reports hb hlast hload
    · cases hmsg
      have hlines := three_mul_length_le stack
      rw [Block.load] at hload
      split_ifs at hload with hle
      have hempty : stack.length = 0 := by
        rw [List.length_singleton] at hle
        omega
      rw [List.length_eq_zero_iff.mp hempty]
      exact ⟨Nat.zero_le _, List.forall_mem_nil _⟩
  · rintro ⟨hlength, hfits⟩
    rcases stack with _ | ⟨element, rest⟩
    · exact ⟨_, rfl, rfl⟩
    · obtain rfl : rest = [] :=
        List.length_eq_zero_iff.mp (Nat.le_zero.mp (Nat.le_of_succ_le_succ hlength))
      obtain ⟨b', hb', hmsg⟩ := appendFrame_first (hfits element List.mem_cons_self)
      refine ⟨b'.msg, ?_, ?_⟩
      · have hone : uint16 1 = 1 := rfl
        simp only [stackStructureMsg, List.length_singleton, hone, Nat.zero_lt_one, if_true,
          List.take_succ_cons, List.take_zero, List.foldlM_cons, hb']
        rfl
      · have hreport : stackReport [element] = frameLine element := by simp [stackReport]
        have hlength : (frameLine element ++ [0]).length = (frameLine element).length + 1 := by simp
        rw [hmsg, hreport, Block.load_filledTo _ _ _ _ (by rw [hlength, Nat.zero_add]),
          List.drop_zero, List.take_of_length_le hlength.le]

def nestedStack : List TStack := [⟨cstr "g", 7, 5⟩, ⟨cstr "f", 4, 2⟩]

/-- The copy of the second line reads its whole block and what lies behind it. -/
theorem nested_stack_overreads : ¬ ∀ stack, ReportsStack stack := by
  intro h
  obtain ⟨msg, hmsg, -⟩ := h nestedStack
  have hnone : stackStructureMsg nestedStack = none := by decide
  cases hnone.symm.trans hmsg

end Sisop

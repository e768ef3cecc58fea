/-!
# Blanks around a text

Blanks are the characters with the Unicode property White_Space. `trim` removes them at both ends
of a text; `trim_trim` says that a second trimming changes nothing.
-/
namespace KeyForest.Text

/-- The characters with the Unicode property White_Space. -/
def isBlank (c : Char) : Bool :=
  let n := c.toNat
  (0x9 ≤ n && n ≤ 0xD) || n == 0x20 || n == 0x85 || n == 0xA0 || n == 0x1680 ||
    (0x2000 ≤ n && n ≤ 0x200A) || n == 0x2028 || n == 0x2029 || n == 0x202F || n == 0x205F ||
    n == 0x3000

/-- The characters from the first one on that is not blank. -/
def trimLeft (cs : List Char) : List Char := cs.dropWhile isBlank

/-- The characters from the first to the last one that is not blank. -/
def trimList (cs : List Char) : List Char := (trimLeft (trimLeft cs).reverse).reverse

theorem trimLeft_of_head {cs : List Char} (h : ∀ c ∈ cs.head?, isBlank c = false) :
    trimLeft cs = cs := by
  cases cs with
  | nil => rfl
  | cons c r => simp [trimLeft, h c (by simp)]

theorem head_trimLeft (cs : List Char) : ∀ c ∈ (trimLeft cs).head?, isBlank c = false := by
  induction cs with
  | nil => simp [trimLeft]
  | cons c r ih =>
    by_cases h : isBlank c = true
    · simpa [trimLeft, h] using ih
    · simp [trimLeft, h]

theorem trimLeft_suffix (cs : List Char) : trimLeft cs <:+ cs := List.dropWhile_suffix _

theorem head_trimList (cs : List Char) : ∀ c ∈ (trimList cs).head?, isBlank c = false := by
  have hstart : trimList cs <+: trimLeft cs := by
    rw [trimList, ← List.reverse_suffix, List.reverse_reverse]
    exact trimLeft_suffix _
  intro c hc
  apply head_trimLeft cs c
  obtain ⟨rest, hrest⟩ := hstart
  rw [← hrest, List.head?_append, show (trimList cs).head? = some c from hc]
  rfl

theorem head_reverse_trimList (cs : List Char) :
    ∀ c ∈ (trimList cs).reverse.head?, isBlank c = false := by
  rw [trimList, List.reverse_reverse]
  exact head_trimLeft _

theorem trimList_trimList (cs : List Char) : trimList (trimList cs) = trimList cs := by
  rw [trimList, trimLeft_of_head (head_trimList cs), trimLeft_of_head (head_reverse_trimList cs),
    List.reverse_reverse]

/-- The text without the blanks at its two ends. -/
def trim (s : String) : String := String.ofList (trimList s.toList)

@[simp] theorem toList_trim (s : String) : (trim s).toList = trimList s.toList := by
  simp [trim]

@[simp] theorem trim_trim (s : String) : trim (trim s) = trim s := by
  simp [trim, trimList_trimList]

end KeyForest.Text

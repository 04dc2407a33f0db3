/-! # Vector clocks

A clock counts events per process index.  Its entries beyond the end are zero; the length itself
records how far a clock has been written and is part of its identity. -/

namespace Interleave

/-- A vector clock, indexed by process index. -/
structure Clock where
  counts : List Nat
deriving DecidableEq, Repr, Inhabited

namespace Clock

/-- The clock of a process that has seen nothing. -/
def empty : Clock := ⟨[]⟩

/-- The count at an index; zero beyond the end. -/
def get (c : Clock) (i : Nat) : Nat := c.counts.getD i 0

/-- The counts extended by zeros to length `n` at least. -/
def padded (c : Clock) (n : Nat) : List Nat := c.counts ++ List.replicate (n - c.counts.length) 0

/-- Count one more event at index `i`. -/
def tick (c : Clock) (i : Nat) : Clock := ⟨(c.padded (i + 1)).modify i (· + 1)⟩

/-- Pointwise maximum, as long as the longer of the two. -/
def join (c d : Clock) : Clock :=
  ⟨List.zipWith max (c.padded d.counts.length) (d.padded c.counts.length)⟩

/-- A clock in reports. -/
def text (c : Clock) : String := "[" ++ ", ".intercalate (c.counts.map toString) ++ "]"

/-! ### Reading an entry -/

@[simp] theorem get_empty (i : Nat) : empty.get i = 0 := rfl

theorem getD_padded (c : Clock) (n i : Nat) : (c.padded n).getD i 0 = c.get i := by
  simp only [padded, get, List.getD_eq_getElem?_getD, List.getElem?_append]
  split
  · rfl
  · rename_i h
    rw [List.getElem?_eq_none (l := c.counts) (by omega)]
    by_cases h' : i - c.counts.length < n - c.counts.length <;> simp [h']

theorem length_padded (c : Clock) (n : Nat) : (c.padded n).length = max c.counts.length n := by
  simp [padded]; omega

theorem get_tick (c : Clock) (i j : Nat) :
    (c.tick i).get j = if j = i then c.get j + 1 else c.get j := by
  have hp := c.getD_padded (i + 1) j
  have hl := c.length_padded (i + 1)
  simp only [tick, get, List.getD_eq_getElem?_getD, List.getElem?_modify] at hp ⊢
  by_cases hj : j = i
  · subst hj
    have hlt : j < (c.padded (j + 1)).length := by omega
    simp only [List.getElem?_eq_getElem hlt, Option.getD_some] at hp
    simp [hlt, hp]
  · simp [Ne.symm hj, hj, hp]

theorem get_join (c d : Clock) (i : Nat) : (c.join d).get i = max (c.get i) (d.get i) := by
  have hc := c.getD_padded d.counts.length i
  have hd := d.getD_padded c.counts.length i
  have lc := c.length_padded d.counts.length
  have ld := d.length_padded c.counts.length
  rw [← hc, ← hd]
  simp only [join, get, List.getD_eq_getElem?_getD, List.getElem?_zipWith]
  by_cases h : i < max c.counts.length d.counts.length
  · simp [List.getElem?_eq_getElem (show i < (c.padded d.counts.length).length by omega),
      List.getElem?_eq_getElem (show i < (d.padded c.counts.length).length by omega)]
  · simp [List.getElem?_eq_none (show (c.padded d.counts.length).length ≤ i by omega),
      List.getElem?_eq_none (show (d.padded c.counts.length).length ≤ i by omega)]

end Clock

end Interleave

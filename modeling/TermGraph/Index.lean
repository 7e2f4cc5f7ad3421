/-!
# De Bruijn indices

An index counts the binders between a bound variable and the binder that owns it. Indices are 32 bit
numbers and their arithmetic saturates: an index that would leave the range stays at the end it reached.
The one exception is the step below another binder, `Index.next?`, which has no answer at the end of
the range.
-/

namespace TermGraph

/-- A de Bruijn index, or a number of binders. -/
abbrev Index := Fin 4294967296

namespace Index

/-- The index of the innermost binder; as a number of binders, none. -/
def zero : Index := ⟨0, by decide⟩

/-- The largest index. -/
def last : Index := ⟨4294967295, by decide⟩

/-- The number itself if it is an index, otherwise the largest index. -/
def clamp (n : Nat) : Index := ⟨min n 4294967295, by omega⟩

@[simp] theorem val_clamp (n : Nat) : (clamp n).val = min n 4294967295 := rfl

@[simp] theorem val_zero : zero.val = 0 := rfl

@[simp] theorem val_last : last.val = 4294967295 := rfl

/-- A number that is an index is left alone. -/
theorem clamp_val (i : Index) : clamp i.val = i := by
  ext
  simp only [val_clamp]
  omega

/-- One more, saturating: the number of binders that makes index `i` bound. -/
def above (i : Index) : Index := clamp (i.val + 1)

/-- One less, saturating at zero: what is left of `i` binders after the innermost. -/
def below (i : Index) : Index := clamp (i.val - 1)

/-- The index moved by `delta`, saturating at both ends. -/
def move (i : Index) (delta : Int) : Index := clamp (i.val + delta).toNat

@[simp] theorem val_above (i : Index) : (above i).val = min (i.val + 1) 4294967295 := rfl

@[simp] theorem val_below (i : Index) : (below i).val = i.val - 1 := by
  simp only [below, val_clamp]
  omega

/-- The larger of two indices. -/
def deeper (i j : Index) : Index := if i.val ≤ j.val then j else i

@[simp] theorem val_deeper (i j : Index) : (deeper i j).val = max i.val j.val := by
  unfold deeper
  split <;> omega

@[simp] theorem val_move (i : Index) (delta : Int) :
    (move i delta).val = min ((i.val : Int) + delta).toNat 4294967295 := rfl

theorem move_zero (i : Index) : move i 0 = i := by
  simp [move, clamp_val]

/-- The index seen from below one more binder, if there is room for it. -/
def next? (i : Index) : Option Index :=
  if h : i.val + 1 < 4294967296 then some ⟨i.val + 1, h⟩ else none

theorem next?_eq_some_iff {i j : Index} : next? i = some j ↔ j.val = i.val + 1 := by
  unfold next?
  split
  · rw [Option.some.injEq, Fin.ext_iff]
    exact eq_comm
  · have := j.isLt
    simp only [reduceCtorEq, false_iff]
    omega

/-- Only below the largest number of binders there is no room for one more. -/
theorem next?_eq_none_iff {i : Index} : next? i = none ↔ i = last := by
  simp only [next?, last, Fin.ext_iff]
  split <;> simp <;> omega

end Index

end TermGraph

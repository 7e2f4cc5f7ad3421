/-!
# Brackets

A mark between two texts shows where the one ends and the other begins, unless it stands in the texts as well. Inside of
brackets it may stand: there it does not separate. So texts in which it stands inside of brackets only can be written
next to each other, with the mark between them, and be told apart again.

## Main statements

* `Written.first_mark`, `Written.last_mark` — **two texts with a mark between them are told apart by the first text, or
  by the last**
-/

namespace TermGraph.Written

/-- How many brackets are open at the end of the text. -/
def nesting : List Char → Int
  | [] => 0
  | c :: text => (if c = '(' then 1 else if c = ')' then -1 else 0) + nesting text

/-- Every bracket is closed, and none is closed that is not open. -/
structure Balanced (text : List Char) : Prop where
  closed : nesting text = 0
  opened : ∀ front rest, text = front ++ rest → 0 ≤ nesting front

/-- The mark stands inside of brackets only. -/
def Shelters (mark : Char) (text : List Char) : Prop :=
  ∀ front rest, text = front ++ mark :: rest → 0 < nesting front

/-- The text in brackets. -/
def bracketed (text : List Char) : List Char := '(' :: (text ++ [')'])

variable {mark : Char} {text s t s' t' : List Char}

@[simp] theorem nesting_append (s t : List Char) : nesting (s ++ t) = nesting s + nesting t := by
  induction s with
  | nil => simp [nesting]
  | cons c s ih => simp only [List.cons_append, nesting, ih, Int.add_assoc]

theorem nesting_cons_of_ne {c : Char} (ho : c ≠ '(') (hc : c ≠ ')') (text : List Char) :
    nesting (c :: text) = nesting text := by
  rw [nesting, if_neg ho, if_neg hc, Int.zero_add]

/-! ## Balanced texts -/

/-- Without brackets nothing is open. -/
theorem nesting_eq_zero (ho : '(' ∉ text) (hc : ')' ∉ text) : nesting text = 0 := by
  induction text with
  | nil => rfl
  | cons c text ih =>
    rw [nesting_cons_of_ne (fun h => ho (h ▸ List.mem_cons_self)) fun h => hc (h ▸ List.mem_cons_self)]
    exact ih (fun h => ho (List.mem_cons_of_mem _ h)) fun h => hc (List.mem_cons_of_mem _ h)

namespace Balanced

theorem of_not_mem (ho : '(' ∉ text) (hc : ')' ∉ text) : Balanced text where
  closed := nesting_eq_zero ho hc
  opened front rest h := by
    subst h
    have hfront : nesting front = 0 :=
      nesting_eq_zero (fun hm => ho (List.mem_append_left _ hm)) fun hm => hc (List.mem_append_left _ hm)
    exact Int.le_of_eq hfront.symm

theorem append (hs : Balanced s) (ht : Balanced t) : Balanced (s ++ t) where
  closed := by rw [nesting_append, hs.closed, ht.closed, Int.add_zero]
  opened front rest h := by
    rcases List.append_eq_append_iff.mp h with ⟨a, rfl, ha⟩ | ⟨a, ha, rfl⟩
    · have := ht.opened a rest ha
      rw [nesting_append, hs.closed]
      omega
    · exact hs.opened front a ha

theorem bracketed (ht : Balanced t) : Balanced (bracketed t) where
  closed := by simp [Written.bracketed, nesting, ht.closed]
  opened front rest h := by
    rcases front with _ | ⟨c, front⟩
    · exact Int.le_refl _
    · obtain ⟨rfl, htail⟩ := List.cons.inj h
      rcases List.append_eq_append_iff.mp htail with ⟨a, rfl, ha⟩ | ⟨a, ha, rfl⟩
      · rcases a with _ | ⟨c, a⟩
        · simp [nesting, ht.closed]
        · obtain ⟨rfl, hnil⟩ := List.cons.inj ha
          obtain ⟨rfl, -⟩ := List.append_eq_nil_iff.mp hnil.symm
          simp [nesting, ht.closed]
      · have := ht.opened front a ha
        rw [nesting, if_pos rfl]
        omega

end Balanced

/-! ## Marks inside of brackets -/

namespace Shelters

theorem of_not_mem (h : mark ∉ text) : Shelters mark text := by
  rintro front rest rfl
  exact absurd (List.mem_append_right _ List.mem_cons_self) h

theorem append (hclosed : nesting s = 0) (hs : Shelters mark s) (ht : Shelters mark t) : Shelters mark (s ++ t) := by
  intro front rest h
  rcases List.append_eq_append_iff.mp h with ⟨a, rfl, ha⟩ | ⟨a, ha, hrest⟩
  · have := ht a rest ha
    rw [nesting_append, hclosed]
    omega
  · rcases a with _ | ⟨c, a⟩
    · exact absurd (ht [] rest hrest.symm) (Int.lt_irrefl 0)
    · obtain ⟨rfl, -⟩ := List.cons.inj hrest
      exact hs front a ha

theorem bracketed (ht : Balanced t) (ho : mark ≠ '(') (hc : mark ≠ ')') : Shelters mark (bracketed t) := by
  intro front rest h
  rcases front with _ | ⟨c, front⟩
  · exact absurd (List.cons.inj h).1.symm ho
  · obtain ⟨rfl, htail⟩ := List.cons.inj h
    have hfront : 0 ≤ nesting front := by
      rcases List.append_eq_append_iff.mp htail with ⟨a, rfl, ha⟩ | ⟨a, ha, -⟩
      · rcases a with _ | ⟨c, a⟩
        · exact absurd (List.cons.inj ha).1.symm hc
        · simp at ha
      · exact ht.opened front a ha
    rw [nesting, if_pos rfl]
    omega

/-- A text that shelters the mark does not begin with a balanced text and the mark behind it. -/
theorem ne_append (h : Shelters mark text) (hclosed : nesting s = 0) : text ≠ s ++ mark :: t :=
  fun he => absurd (h s t he) (by omega)

end Shelters

/-! ## Telling texts apart -/

/-- The first of two texts ends at the first mark outside of brackets. -/
theorem first_mark (hclosed : nesting s = 0) (hclosed' : nesting s' = 0) (hs : Shelters mark s)
    (hs' : Shelters mark s') (h : s ++ mark :: t = s' ++ mark :: t') : s = s' ∧ t = t' := by
  rcases List.append_eq_append_iff.mp h with ⟨a, ha, hrest⟩ | ⟨a, ha, hrest⟩ <;> rcases a with _ | ⟨c, a⟩
  · exact ⟨by rw [ha, List.append_nil], (List.cons.inj hrest).2⟩
  · obtain ⟨rfl, -⟩ := List.cons.inj hrest
    exact absurd ha (hs'.ne_append hclosed)
  · exact ⟨by rw [ha, List.append_nil], (List.cons.inj hrest).2.symm⟩
  · obtain ⟨rfl, -⟩ := List.cons.inj hrest
    exact absurd ha (hs.ne_append hclosed')

/-- The last of two texts begins behind the last mark outside of brackets. -/
theorem last_mark (ho : mark ≠ '(') (hc : mark ≠ ')') (hclosed : nesting t = 0) (hclosed' : nesting t' = 0)
    (ht : Shelters mark t) (ht' : Shelters mark t') (h : s ++ mark :: t = s' ++ mark :: t') : s = s' ∧ t = t' := by
  have hfar : ∀ {a u v : List Char}, nesting u = 0 → nesting v = 0 → Shelters mark u → u ≠ a ++ mark :: v := by
    intro a u v hu hv hshelters he
    have hopen := hshelters a v he
    rw [he, nesting_append, nesting_cons_of_ne ho hc, hv] at hu
    omega
  rcases List.append_eq_append_iff.mp h with ⟨a, ha, hrest⟩ | ⟨a, ha, hrest⟩ <;> rcases a with _ | ⟨c, a⟩
  · exact ⟨by rw [ha, List.append_nil], (List.cons.inj hrest).2⟩
  · exact absurd (List.cons.inj hrest).2 (hfar hclosed hclosed' ht)
  · exact ⟨by rw [ha, List.append_nil], (List.cons.inj hrest).2.symm⟩
  · exact absurd (List.cons.inj hrest).2 (hfar hclosed' hclosed ht')

end TermGraph.Written

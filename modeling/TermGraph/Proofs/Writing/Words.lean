import TermGraph.Proofs.Writing.Phrase
import TermGraph.Term.Display

/-!
# Words

The leaves of a term are written as words: names, integers and indices, and so are the names of binders. The first
character tells which of the three a word is: a letter begins a name, a percent sign an index, and a digit or a minus
sign an integer. Words of one sort tell apart what they are written for.

## Main statements

* `wordKind_identifier`, `wordKind_integer`, `wordKind_index` — **the sort of a word shows in its first character**
* `binderName_injective` — every number of binders has a name of its own
* `Form.eq_of_index_deBruijn_eq` — **an index of the de Bruijn form tells its scope**
-/

namespace TermGraph

open Written

/-! ## Names -/

/-- A letter. What lies beyond ASCII is counted among the letters, so that names in every alphabet are identifiers. -/
def isLetter (c : Char) : Bool := c.isAlpha || decide (127 < c.toNat)

/-- A letter, a digit or an underscore. -/
def isNameChar (c : Char) : Bool := isLetter c || c.isDigit || c == '_'

/-- A letter followed by letters, digits or underscores. -/
def isIdentifier (name : String) : Bool :=
  match name.toList with
  | [] => false
  | c :: letters => isLetter c && letters.all isNameChar

/-- The sort of leaf that a word with these letters is written for. -/
def wordKind (letters : List Char) : Kind :=
  match letters with
  | [] => .const
  | c :: _ => if isLetter c then .var else if c = '%' then .bound else .const

variable {name : String} {letters : List Char} {n m : Nat}

/-- Letters that are all of one class are those of a word if no mark is of that class. -/
theorem Plain.of_forall {p : Char → Bool} (hp : marks.all (fun mark => !p mark) = true) (hne : letters ≠ [])
    (h : ∀ c ∈ letters, p c = true) : Plain letters where
  ne_nil := hne
  unmarked c hc hm := by
    have hmark := List.all_eq_true.mp hp c hm
    rw [h c hc] at hmark
    cases hmark

theorem exists_of_isIdentifier (h : isIdentifier name = true) :
    ∃ c letters, name.toList = c :: letters ∧ isLetter c = true ∧ ∀ d ∈ letters, isNameChar d = true := by
  rw [isIdentifier] at h
  cases hname : name.toList with
  | nil => simp [hname] at h
  | cons c letters =>
    simp only [hname, Bool.and_eq_true, List.all_eq_true] at h
    exact ⟨c, letters, rfl, h⟩

/-- A name is a word. -/
theorem plain_identifier (h : isIdentifier name = true) : Plain name.toList := by
  obtain ⟨c, letters, hname, hc, hletters⟩ := exists_of_isIdentifier h
  rw [hname]
  refine .of_forall (p := isNameChar) (by decide) (List.cons_ne_nil _ _) (List.forall_mem_cons.mpr ⟨?_, hletters⟩)
  rw [isNameChar, hc, Bool.true_or, Bool.true_or]

theorem wordKind_identifier (h : isIdentifier name = true) : wordKind name.toList = .var := by
  obtain ⟨c, letters, hname, hc, -⟩ := exists_of_isIdentifier h
  rw [hname, wordKind, if_pos hc]

/-! ## Numbers -/

theorem toList_toString (n : Nat) : (toString n).toList = Nat.toDigits 10 n := by
  rw [Nat.toString_eq_repr, Nat.toList_repr]

theorem isDigit_of_mem {c : Char} (h : c ∈ (toString n).toList) : c.isDigit = true := by
  rw [toList_toString] at h
  exact Nat.isDigit_of_mem_toDigits (by decide) (by decide) h

theorem toString_ne_nil (n : Nat) : (toString n).toList ≠ [] := by
  rw [toList_toString]
  exact Nat.toDigits_ne_nil

theorem toString_injective (h : (toString n).toList = (toString m).toList) : n = m := by
  rw [toList_toString, toList_toString] at h
  have hn : Nat.ofDigitChars 10 (Nat.toDigits 10 n) 0 = n := Nat.ofDigitChars_toDigits (by decide) (by decide)
  rw [← hn, h, Nat.ofDigitChars_toDigits (by decide) (by decide)]

theorem not_mem_toString {c : Char} (h : c.isDigit = false) (n : Nat) : c ∉ (toString n).toList :=
  fun hc => Bool.false_ne_true (h.symm.trans (isDigit_of_mem hc))

theorem le_toNat_of_isAlpha {c : Char} (h : c.isAlpha = true) : 65 ≤ c.toNat := by
  rcases Bool.or_eq_true_iff.mp (show (c.isUpper || c.isLower) = true from h) with hupper | hlower
  · exact (of_decide_eq_true hupper).1
  · have hlow : 97 ≤ c.toNat := of_decide_eq_true (Bool.and_eq_true_iff.mp hlower).1
    omega

theorem isLetter_of_isDigit {c : Char} (h : c.isDigit = true) : isLetter c = false := by
  have hdigit : c.toNat ≤ 57 := (Char.isDigit_iff_toNat.mp h).2
  rw [isLetter, Bool.or_eq_false_iff, Bool.eq_false_iff, decide_eq_false_iff_not]
  refine ⟨fun halpha => ?_, by omega⟩
  have := le_toNat_of_isAlpha halpha
  omega

/-- The digits of an integer, behind a minus sign if it is negative. -/
theorem toList_integer (value : Int) :
    (toString value).toList =
      if 0 ≤ value then (toString value.toNat).toList else '-' :: (toString (-value).toNat).toList := by
  rw [Int.toString_eq_repr, Int.repr_eq_if]
  split <;> simp

theorem plain_integer (value : Int) : Plain (toString value).toList := by
  rw [toList_integer]
  split
  · exact .of_forall (p := Char.isDigit) (by decide) (toString_ne_nil _) fun c hc => isDigit_of_mem hc
  · refine .of_forall (p := fun c => c.isDigit || c == '-') (by decide) (List.cons_ne_nil _ _) ?_
    refine List.forall_mem_cons.mpr ⟨by decide, fun c hc => ?_⟩
    rw [isDigit_of_mem hc, Bool.true_or]

theorem wordKind_integer (value : Int) : wordKind (toString value).toList = .const := by
  rw [toList_integer]
  split
  · obtain ⟨c, letters, hdigits⟩ := List.exists_cons_of_ne_nil (toString_ne_nil value.toNat)
    have hc : c.isDigit = true := isDigit_of_mem (hdigits ▸ List.mem_cons_self)
    have hmark : c ≠ '%' := by
      rintro rfl
      exact absurd hc (by decide)
    rw [hdigits, wordKind, isLetter_of_isDigit hc, if_neg Bool.false_ne_true, if_neg hmark]
  · rfl

theorem integer_injective {value other : Int} (h : (toString value).toList = (toString other).toList) :
    value = other := by
  have hminus : ∀ {n : Nat} {letters : List Char}, (toString n).toList ≠ '-' :: letters := fun he =>
    not_mem_toString (by decide) _ (he ▸ List.mem_cons_self)
  rw [toList_integer, toList_integer] at h
  split at h <;> split at h
  · have := toString_injective h
    omega
  · exact absurd h hminus
  · exact absurd h.symm hminus
  · have := toString_injective (List.cons.inj h).2
    omega

/-! ## Indices -/

section Indices

variable {form : Form} {depth home scope scope' : Nat} {index index' : Index}

theorem toList_index_deBruijn (depth home scope : Nat) (index : Index) :
    (Form.deBruijn.index depth index home scope).toList =
      '%' :: ((toString index.val).toList ++ if scope = home then [] else ':' :: (toString scope).toList) := by
  rw [Form.index]
  split <;> simp

/-- Outside of all binders an index is shown as it is. -/
theorem toList_index_of_ne (hform : form ≠ .deBruijn) (home scope : Nat) (index : Index) :
    (form.index 0 index home scope).toList = '%' :: (toString index.val).toList := by
  cases form with
  | deBruijn => exact absurd rfl hform
  | input | matcher => simp [Form.index]

theorem exists_index (form : Form) (home scope : Nat) (index : Index) :
    ∃ letters, (form.index 0 index home scope).toList = '%' :: letters ∧
      ∀ c ∈ letters, (c.isDigit || c == ':') = true := by
  have hdigits : ∀ (n : Nat), ∀ c ∈ (toString n).toList, (c.isDigit || c == ':') = true := fun n c hc => by
    rw [isDigit_of_mem hc, Bool.true_or]
  by_cases hform : form = .deBruijn
  · subst hform
    refine ⟨_, toList_index_deBruijn 0 home scope index, List.forall_mem_append.mpr ⟨hdigits _, ?_⟩⟩
    split
    · exact fun _ hc => absurd hc List.not_mem_nil
    · exact List.forall_mem_cons.mpr ⟨by decide, hdigits scope⟩
  · exact ⟨_, toList_index_of_ne hform home scope index, hdigits _⟩

theorem plain_index (form : Form) (home scope : Nat) (index : Index) :
    Plain (form.index 0 index home scope).toList := by
  obtain ⟨letters, hindex, hletters⟩ := exists_index form home scope index
  rw [hindex]
  refine .of_forall (p := fun c => c.isDigit || c == ':' || c == '%') (by decide) (List.cons_ne_nil _ _) ?_
  exact List.forall_mem_cons.mpr ⟨by decide, fun c hc => by rw [hletters c hc, Bool.true_or]⟩

theorem wordKind_index (form : Form) (home scope : Nat) (index : Index) :
    wordKind (form.index 0 index home scope).toList = .bound := by
  obtain ⟨letters, hindex, -⟩ := exists_index form home scope index
  rw [hindex]
  rfl

/-- **An index of the de Bruijn form tells its scope.** -/
theorem Form.eq_of_index_deBruijn_eq
    (h : (Form.deBruijn.index depth index home scope).toList = (Form.deBruijn.index depth index' home scope').toList) :
    index = index' ∧ scope = scope' := by
  have hclosed : ∀ n : Nat, nesting (toString n).toList = 0 := fun n =>
    nesting_eq_zero (not_mem_toString (by decide) n) (not_mem_toString (by decide) n)
  have hcolon : ∀ n : Nat, ':' ∉ (toString n).toList := not_mem_toString (by decide)
  rw [toList_index_deBruijn, toList_index_deBruijn, List.cons.injEq] at h
  obtain ⟨-, h⟩ := h
  by_cases hs : scope = home <;> by_cases hs' : scope' = home
  · rw [if_pos hs, if_pos hs', List.append_nil, List.append_nil] at h
    exact ⟨Fin.ext (toString_injective h), hs.trans hs'.symm⟩
  · rw [if_pos hs, if_neg hs', List.append_nil] at h
    exact absurd (h ▸ List.mem_append_right _ List.mem_cons_self) (hcolon index.val)
  · rw [if_neg hs, if_pos hs', List.append_nil] at h
    exact absurd (h ▸ List.mem_append_right _ List.mem_cons_self) (hcolon index'.val)
  · rw [if_neg hs, if_neg hs'] at h
    obtain ⟨hindex, hscope⟩ := first_mark (hclosed _) (hclosed _) (.of_not_mem (hcolon _)) (.of_not_mem (hcolon _)) h
    exact ⟨Fin.ext (toString_injective hindex), toString_injective hscope⟩

end Indices

/-! ## Binders -/

theorem toList_binderName (d : Nat) :
    (binderName d).toList =
      Char.ofNat (97 + d % 26) :: if d / 26 = 0 then [] else (toString (d / 26)).toList := by
  rw [binderName]
  split <;> simp

theorem isIdentifier_binderName (d : Nat) : isIdentifier (binderName d) = true := by
  have hletter : ∀ r < 26, isLetter (Char.ofNat (97 + r)) = true := by decide
  rw [isIdentifier, toList_binderName]
  simp only [hletter _ (Nat.mod_lt d (by decide)), Bool.true_and, List.all_eq_true]
  intro c hc
  split at hc
  · exact absurd hc List.not_mem_nil
  · rw [isNameChar, isDigit_of_mem hc, Bool.or_true, Bool.true_or]

/-- **Every number of binders has a name of its own.** -/
theorem binderName_injective (h : binderName n = binderName m) : n = m := by
  have hletter : ∀ r < 26, ∀ s < 26, Char.ofNat (97 + r) = Char.ofNat (97 + s) → r = s := by decide
  have hlist := congrArg String.toList h
  rw [toList_binderName, toList_binderName, List.cons.injEq] at hlist
  have hrest : n % 26 = m % 26 := hletter _ (Nat.mod_lt n (by decide)) _ (Nat.mod_lt m (by decide)) hlist.1
  have hround : n / 26 = m / 26 := by
    obtain ⟨-, hround⟩ := hlist
    split at hround <;> split at hround
    · omega
    · exact absurd hround.symm (toString_ne_nil _)
    · exact absurd hround (toString_ne_nil _)
    · exact toString_injective hround
  omega

/-- The alphabet is used up once. -/
example : binderName 27 = "b1" := by decide

end TermGraph

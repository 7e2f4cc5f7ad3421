import TermGraph.Proofs.Insertion.Copied
import TermGraph.Proofs.Tree.Filling
import TermGraph.Proofs.Writing.Words

/-!
# Terms on paper

A term is written as the phrase for its tree. How a bound variable is shown may depend on the binders around it; the
phrase shows it as it is shown outside of all binders, so what depends on them has to be put in its place beforehand.

If names are identifiers and constants are integers, the phrase tells the tree, and so does its text.

## Main statements

* `Term.toList_renderAt` — **the text of a term is the text of the phrase for its tree**
* `Tree.eq_of_phrase_eq` — trees with the same phrase are the same
* `Tree.eq_of_text_eq` — **trees whose phrases have the same text are the same**
-/

namespace TermGraph

open Written

/-- The literal is an integer. -/
def Literal.isInteger : Literal → Bool
  | .integer _ => true
  | .text _ => false

/-- The form tells the slot from others: it shows scopes, or the scope is that of the term. -/
def Form.Tells (form : Form) (home : Nat) (slot : Slot) : Prop := form = .deBruijn ∨ slot.scope = home

/-- Outside of all binders an index shows the slot. -/
theorem Form.eq_of_index_eq {form : Form} {home : Nat} {slot slot' : Slot} (hs : form.Tells home slot)
    (hs' : form.Tells home slot')
    (h : (form.index 0 slot.index home slot.scope).toList = (form.index 0 slot'.index home slot'.scope).toList) :
    slot = slot' := by
  obtain ⟨index, scope⟩ := slot
  obtain ⟨index', scope'⟩ := slot'
  rw [Slot.mk.injEq]
  by_cases hform : form = .deBruijn
  · subst hform
    exact Form.eq_of_index_deBruijn_eq h
  · rw [toList_index_of_ne hform, toList_index_of_ne hform, List.cons.injEq] at h
    exact ⟨Fin.ext (toString_injective h.2), (hs.resolve_left hform).trans (hs'.resolve_left hform).symm⟩

/-- The variant of the trees that the phrase may stand for. -/
def Phrase.variant : Phrase → TermGraph.Kind
  | word letters => wordKind letters
  | call _ _ => .fn
  | app _ _ => .app
  | lambda _ => .lambda

namespace Tree

variable {ν : Type} {form : Form} {home depth : Nat} {s t : Tree Slot}

/-! ## Legible trees -/

mutual

/-- Names and symbols are identifiers, and constants are integers. -/
def legible : Tree ν → Bool
  | .var name => isIdentifier name
  | .const value => value.isInteger
  | .fn symbol args => isIdentifier symbol && legibleAll args
  | .app function argument => legible function && legible argument
  | .lambda body => legible body
  | .bound _ => true

/-- Each of the trees is legible. -/
def legibleAll : List (Tree ν) → Bool
  | [] => true
  | t :: ts => legible t && legibleAll ts

end

theorem legibleAll_iff {ts : List (Tree ν)} : legibleAll ts = true ↔ ∀ t ∈ ts, t.legible = true := by
  induction ts with
  | nil => simp [legibleAll]
  | cons t ts ih => simp [legibleAll, ih]

/-- Bound variables may be replaced by legible trees. -/
theorem legible_mapBound {μ : Type} {f : Nat → ν → Tree μ} (hf : ∀ d slot, (f d slot).legible = true) {t : Tree ν}
    (h : t.legible = true) (depth : Nat) : (t.mapBound f depth).legible = true := by
  induction t using Tree.induction generalizing depth with
  | var _ => exact h
  | const _ => exact h
  | fn symbol args ih =>
    rw [legible, Bool.and_eq_true, legibleAll_iff] at h
    rw [mapBound, mapBoundAll_eq_map, legible, Bool.and_eq_true, legibleAll_iff]
    exact ⟨h.1, List.forall_mem_map.mpr fun t ht => ih t ht (h.2 t ht) depth⟩
  | app function argument ihf iha =>
    rw [legible, Bool.and_eq_true] at h
    rw [mapBound, legible, ihf h.1, iha h.2, Bool.and_self]
  | lambda body ih => exact ih h (depth + 1)
  | bound slot => exact hf depth slot

/-! ## The phrase for a tree -/

mutual

/-- The phrase for a tree of the scope `home`, with bound variables shown as they are outside of all binders. -/
def phrase (form : Form) (home : Nat) : Tree Slot → Phrase
  | .var name => .word name.toList
  | .const value => .word value.render.toList
  | .fn symbol args => .call symbol.toList (phraseAll form home args)
  | .app function argument => .app (phrase form home function) (phrase form home argument)
  | .lambda body => .lambda (phrase form home body)
  | .bound slot => .word (form.index 0 slot.index home slot.scope).toList

/-- The phrase for each of the trees. -/
def phraseAll (form : Form) (home : Nat) : List (Tree Slot) → List Phrase
  | [] => []
  | t :: ts => phrase form home t :: phraseAll form home ts

end

theorem phraseAll_eq_map (form : Form) (home : Nat) (ts : List (Tree Slot)) :
    phraseAll form home ts = ts.map (phrase form home) := by
  induction ts with
  | nil => rfl
  | cons t ts ih => rw [phraseAll, List.map_cons, ih]

theorem exists_of_isInteger {value : Literal} (h : value.isInteger = true) : ∃ n, value = .integer n := by
  cases value with
  | integer n => exact ⟨n, rfl⟩
  | text _ => cases h

theorem legible_phrase (form : Form) (home : Nat) (h : t.legible = true) : (t.phrase form home).Legible := by
  induction t using Tree.induction with
  | var name => exact .word (plain_identifier h)
  | const value =>
    obtain ⟨n, rfl⟩ := exists_of_isInteger h
    exact .word (plain_integer n)
  | fn symbol args ih =>
    rw [legible, Bool.and_eq_true, legibleAll_iff] at h
    rw [phrase, phraseAll_eq_map]
    exact .call (plain_identifier h.1) (List.forall_mem_map.mpr fun t ht => ih t ht (h.2 t ht))
  | app function argument ihf iha =>
    rw [legible, Bool.and_eq_true] at h
    exact .app (ihf h.1) (iha h.2)
  | lambda body ih => exact .lambda (ih h)
  | bound slot => exact .word (plain_index form home slot.scope slot.index)

/-- The variant of a legible tree shows in its phrase. -/
theorem variant_phrase (form : Form) (home : Nat) (h : t.legible = true) :
    (t.phrase form home).variant = t.shape.kind := by
  cases t with
  | var name => exact wordKind_identifier h
  | const value =>
    obtain ⟨n, rfl⟩ := exists_of_isInteger h
    exact wordKind_integer n
  | bound slot => exact wordKind_index form home slot.scope slot.index
  | _ => rfl

theorem kind_eq_of_phrase_eq (hs : s.legible = true) (ht : t.legible = true)
    (h : s.phrase form home = t.phrase form home) : s.shape.kind = t.shape.kind := by
  rw [← variant_phrase form home hs, ← variant_phrase form home ht, h]

/-- Trees with the same phrase are the same. -/
theorem eq_of_phrase_eq (hs : s.legible = true) (ht : t.legible = true)
    (htells : s.Every (fun _ => form.Tells home) depth) (htells' : t.Every (fun _ => form.Tells home) depth)
    (h : s.phrase form home = t.phrase form home) : s = t := by
  induction s using Tree.induction generalizing t depth with
  | var name =>
    have hkind := kind_eq_of_phrase_eq hs ht h
    cases t with
    | var name' =>
      rw [phrase, phrase, Phrase.word.injEq, String.toList_inj] at h
      rw [h]
    | _ => cases hkind
  | const value =>
    have hkind := kind_eq_of_phrase_eq hs ht h
    cases t with
    | const value' =>
      obtain ⟨n, rfl⟩ := exists_of_isInteger hs
      obtain ⟨m, rfl⟩ := exists_of_isInteger ht
      rw [integer_injective (Phrase.word.inj h)]
    | _ => cases hkind
  | fn symbol args ih =>
    have hkind := kind_eq_of_phrase_eq hs ht h
    cases t with
    | fn symbol' args' =>
      rw [legible, Bool.and_eq_true, legibleAll_iff] at hs ht
      rw [Every, everyAll_iff] at htells htells'
      rw [phrase, phrase, Phrase.call.injEq, String.toList_inj, phraseAll_eq_map, phraseAll_eq_map] at h
      have hargs : args = args' := list_eq_of_map_eq h.2 fun a ha b hb hab =>
        ih a ha (hs.2 a ha) (ht.2 b hb) (htells a ha) (htells' b hb) hab
      rw [h.1, hargs]
    | _ => cases hkind
  | app function argument ihf iha =>
    have hkind := kind_eq_of_phrase_eq hs ht h
    cases t with
    | app function' argument' =>
      rw [legible, Bool.and_eq_true] at hs ht
      rw [phrase, phrase, Phrase.app.injEq] at h
      rw [ihf hs.1 ht.1 htells.1 htells'.1 h.1, iha hs.2 ht.2 htells.2 htells'.2 h.2]
    | _ => cases hkind
  | lambda body ih =>
    have hkind := kind_eq_of_phrase_eq hs ht h
    cases t with
    | lambda body' =>
      have hbody : body = body' := ih hs ht htells htells' (Phrase.lambda.inj h)
      rw [hbody]
    | _ => cases hkind
  | bound slot =>
    have hkind := kind_eq_of_phrase_eq hs ht h
    cases t with
    | bound slot' => rw [Form.eq_of_index_eq htells htells' (Phrase.word.inj h)]
    | _ => cases hkind

/-- **Trees whose phrases have the same text are the same.** -/
theorem eq_of_text_eq {binder : Nat → List Char} (hbinder : ∀ d, Plain (binder d)) (hs : s.legible = true)
    (ht : t.legible = true) (htells : s.Every (fun _ => form.Tells home) 0)
    (htells' : t.Every (fun _ => form.Tells home) 0)
    (h : (s.phrase form home).text binder depth = (t.phrase form home).text binder depth) : s = t :=
  eq_of_phrase_eq hs ht htells htells'
    (Phrase.eq_of_text_eq hbinder (legible_phrase form home hs) (legible_phrase form home ht) h)

end Tree

/-! ## The text of a term -/

theorem plain_binder (form : Form) (d : Nat) : Plain (form.binder d).toList := by
  cases form with
  | deBruijn => exact .of_forall (p := Char.isDigit) (by decide) (toString_ne_nil d) fun c hc => isDigit_of_mem hc
  | input | matcher => exact plain_identifier (isIdentifier_binderName d)

theorem toList_parenthesized (needed : Bool) (text : String) :
    (parenthesized needed text).toList = enclosed needed text.toList := by
  cases needed with
  | false => rfl
  | true => simp [parenthesized, enclosed, bracketed]

section

variable {form : Form} {home : Nat} {g : Nat → Slot → Tree Slot}
  (hg : ∀ depth slot, (g depth slot).phrase form home = .word (form.index depth slot.index home slot.scope).toList)

include hg

/-- Bound variables are replaced by leaves. -/
theorem Tree.kind_phrase_mapBound (t : Tree Slot) (depth : Nat) :
    ((t.mapBound g depth).phrase form home).kind = (t.phrase form home).kind := by
  cases t with
  | bound slot => rw [mapBound, hg, phrase, Phrase.kind, Phrase.kind]
  | _ => rfl

/-- A function is put in brackets if its phrase is. -/
theorem Term.needsParensLeft_eq (t : Term) (depth : Nat) :
    t.needsParensLeft = (((t.tree.mapBound g depth).phrase form home).kind == .lambda) := by
  rw [Tree.kind_phrase_mapBound hg]
  cases t <;> rfl

/-- An argument is put in brackets if its phrase is. -/
theorem Term.needsParensRight_eq (t : Term) (depth : Nat) :
    t.needsParensRight = (((t.tree.mapBound g depth).phrase form home).kind == .app ||
      ((t.tree.mapBound g depth).phrase form home).kind == .lambda) := by
  rw [Tree.kind_phrase_mapBound hg]
  cases t <;> rfl

/-- **The text of a term is the text of the phrase for its tree**, in which bound variables have been replaced so that
they are shown as they are to be shown below the binders around them. -/
theorem Term.toList_renderAt (hform : form ≠ .matcher) {store : Store} (hcanon : store.Canonical)
    (hhome : store.scope = home) (t : Term) (ht : store.Owns t) (depth : Nat) :
    (t.renderAt form depth).toList =
      ((t.tree.mapBound g depth).phrase form home).text (fun d => (form.binder d).toList) depth := by
  -- below a node are nodes of the same store, so every bound variable is shown as one of that scope
  induction t using Term.children_induction generalizing depth with
  | h t ih =>
    replace ih := fun c hc => ih c hc (hcanon.owns_child ht hc)
    cases t with
    | var stamp name => cases form with
      | matcher => exact absurd rfl hform
      | input | deBruijn => rfl
    | const stamp value => rfl
    | fn stamp symbol args =>
      have hargs : (args.map (Term.renderAt form depth)).map String.toList =
          (((args.map Term.tree).map (Tree.mapBound g depth)).map (Tree.phrase form home)).map
            (Phrase.text (fun d => (form.binder d).toList) depth) := by
        simp only [List.map_map]
        exact List.map_congr_left fun a ha => ih a ha depth
      rw [renderAt, renderAllAt_eq_map, tree, trees_eq_map, Tree.mapBound, Tree.mapBoundAll_eq_map, Tree.phrase,
        Tree.phraseAll_eq_map, Phrase.text, Phrase.texts_eq_map]
      simp [String.toList_intercalate, hargs, bracketed]
    | app stamp function argument =>
      have hfunction := ih function List.mem_cons_self depth
      have hargument := ih argument (List.mem_cons_of_mem _ List.mem_cons_self) depth
      rw [renderAt, tree, Tree.mapBound, Tree.phrase, Phrase.text, ← needsParensLeft_eq hg, ← needsParensRight_eq hg,
        ← hfunction, ← hargument]
      simp [toList_parenthesized]
    | lambda stamp body =>
      rw [renderAt, tree, Tree.mapBound, Tree.phrase, Phrase.text, ← ih body List.mem_cons_self (depth + 1)]
      simp
    | bound stamp index scope =>
      have hscope : stamp.id.scope = home := (hcanon.scope_eq ht).trans hhome
      rw [renderAt, tree, Tree.mapBound, hg, Phrase.text, hscope]

end

end TermGraph

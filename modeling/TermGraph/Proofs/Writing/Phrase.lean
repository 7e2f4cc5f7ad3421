import TermGraph.Proofs.Related
import TermGraph.Proofs.Writing.Brackets

/-!
# Phrases

A phrase is a term as it stands on paper, with its leaves and symbols as words. Arguments of a symbol stand in brackets
with commas between them, the argument of a function stands behind it with a blank between them, and a lambda reaches as
far as it can. A function is put in brackets if it is a lambda, and an argument if it is a lambda or has an argument
itself; all other brackets are left out.

A phrase can be read in one way only. Each of the four kinds shows in its text: a lambda begins with its mark, a
function with an argument has a blank outside of brackets, a symbol with arguments has brackets, and a word has none.
The last blank outside of brackets tells a function from its argument, and commas tell arguments apart.

## Main statements

* `Phrase.Legible.entry` — in a text brackets are balanced and commas are sheltered
* `Phrase.kind_eq` — the kind of a phrase shows in its text
* `Phrase.eq_of_text_eq` — **phrases with the same text are the same**
-/

namespace TermGraph

open Written

/-- The characters that show how words are put together. -/
def marks : List Char := ['(', ')', ',', ' ', '\\']

/-- The letters are those of a word. -/
structure Plain (letters : List Char) : Prop where
  ne_nil : letters ≠ []
  unmarked : ∀ c ∈ letters, c ∉ marks

/-- What stands between commas: brackets are balanced, commas stand inside of them only. -/
structure Entry (text : List Char) : Prop where
  ne_nil : text ≠ []
  balanced : Balanced text
  comma : Shelters ',' text

/-- A term on paper. -/
inductive Phrase where
  | word (letters : List Char)
  | call (symbol : List Char) (args : List Phrase)
  | app (function argument : Phrase)
  | lambda (body : Phrase)

/-! ## Words -/

namespace Plain

variable {letters : List Char}

theorem not_mem (h : Plain letters) {c : Char} (hc : c ∈ marks) : c ∉ letters := fun hm => h.unmarked c hm hc

theorem balanced (h : Plain letters) : Balanced letters :=
  .of_not_mem (h.not_mem (by decide)) (h.not_mem (by decide))

theorem shelters (h : Plain letters) {mark : Char} (hm : mark ∈ marks) : Shelters mark letters :=
  .of_not_mem (h.not_mem hm)

theorem entry (h : Plain letters) : Entry letters := ⟨h.ne_nil, h.balanced, h.shelters (by decide)⟩

/-- A word does not begin with a mark, and neither does what begins with a word. -/
theorem append_ne_cons (h : Plain letters) {mark : Char} (hm : mark ∈ marks) (rest text : List Char) :
    letters ++ rest ≠ mark :: text := by
  rcases letters with _ | ⟨c, letters⟩
  · exact absurd rfl h.ne_nil
  · intro he
    exact h.not_mem hm ((List.cons.inj he).1 ▸ List.mem_cons_self)

theorem ne_cons (h : Plain letters) {mark : Char} (hm : mark ∈ marks) (text : List Char) : letters ≠ mark :: text := by
  rw [← List.append_nil letters]
  exact h.append_ne_cons hm [] text

end Plain

/-! ## Entries -/

namespace Entry

variable {s t : List Char}

theorem append (hs : Entry s) (ht : Entry t) : Entry (s ++ t) where
  ne_nil h := hs.ne_nil (List.append_eq_nil_iff.mp h).1
  balanced := hs.balanced.append ht.balanced
  comma := hs.comma.append hs.balanced.closed ht.comma

theorem bracketed (ht : Balanced t) : Entry (bracketed t) where
  ne_nil := List.cons_ne_nil _ _
  balanced := ht.bracketed
  comma := .bracketed ht (by decide) (by decide)

theorem singleton {c : Char} (ho : c ≠ '(') (hc : c ≠ ')') (hcomma : c ≠ ',') : Entry [c] where
  ne_nil := List.cons_ne_nil _ _
  balanced := .of_not_mem (fun h => ho (List.mem_singleton.mp h).symm) fun h => hc (List.mem_singleton.mp h).symm
  comma := .of_not_mem fun h => hcomma (List.mem_singleton.mp h).symm

end Entry

theorem Written.Balanced.intercalate {sep : List Char} (hsep : Balanced sep) {texts : List (List Char)}
    (h : ∀ t ∈ texts, Balanced t) : Balanced (sep.intercalate texts) := by
  induction texts with
  | nil => exact .of_not_mem List.not_mem_nil List.not_mem_nil
  | cons t texts ih =>
    have ht := h t List.mem_cons_self
    cases texts with
    | nil => rwa [List.intercalate_singleton]
    | cons u texts =>
      rw [List.intercalate_cons_cons]
      exact (ht.append hsep).append (ih fun v hv => h v (List.mem_cons_of_mem _ hv))

theorem intercalate_cons_cons (s t : List Char) (texts : List (List Char)) :
    [',', ' '].intercalate (s :: t :: texts) = s ++ ',' :: ' ' :: [',', ' '].intercalate (t :: texts) := by
  rw [List.intercalate_cons_cons, List.append_assoc]
  rfl

theorem intercalate_ne_nil {t : List Char} (ht : t ≠ []) (texts : List (List Char)) :
    [',', ' '].intercalate (t :: texts) ≠ [] := by
  cases texts with
  | nil => rwa [List.intercalate_singleton]
  | cons u texts =>
    rw [intercalate_cons_cons]
    exact fun h => ht (List.append_eq_nil_iff.mp h).1

/-- Entries with commas between them are told apart. -/
theorem eq_of_intercalate_eq {ss ts : List (List Char)} (hss : ∀ s ∈ ss, Entry s) (hts : ∀ t ∈ ts, Entry t)
    (h : [',', ' '].intercalate ss = [',', ' '].intercalate ts) : ss = ts := by
  induction ss generalizing ts with
  | nil =>
    cases ts with
    | nil => rfl
    | cons t ts => exact absurd h.symm (intercalate_ne_nil (hts t List.mem_cons_self).ne_nil ts)
  | cons s ss ih =>
    have hs := hss s List.mem_cons_self
    cases ts with
    | nil => exact absurd h (intercalate_ne_nil hs.ne_nil ss)
    | cons t ts =>
      have ht := hts t List.mem_cons_self
      cases ss with
      | nil =>
        rw [List.intercalate_singleton] at h
        cases ts with
        | nil => rw [h, List.intercalate_singleton]
        | cons u ts =>
          rw [intercalate_cons_cons] at h
          exact absurd h (hs.comma.ne_append ht.balanced.closed)
      | cons v ss =>
        rw [intercalate_cons_cons] at h
        cases ts with
        | nil =>
          rw [List.intercalate_singleton] at h
          exact absurd h.symm (ht.comma.ne_append hs.balanced.closed)
        | cons u ts =>
          rw [intercalate_cons_cons] at h
          obtain ⟨rfl, hrest⟩ := first_mark hs.balanced.closed ht.balanced.closed hs.comma ht.comma h
          rw [ih (fun w hw => hss w (List.mem_cons_of_mem _ hw)) (fun w hw => hts w (List.mem_cons_of_mem _ hw))
            (List.cons.inj hrest).2]

/-! ## The text of a phrase -/

/-- The text, in brackets if they are needed. -/
def enclosed (needed : Bool) (text : List Char) : List Char := if needed then bracketed text else text

theorem Entry.enclosed {t : List Char} (h : Entry t) (needed : Bool) : Entry (enclosed needed t) := by
  cases needed with
  | false => exact h
  | true => exact .bracketed h.balanced

namespace Phrase

/-- The four kinds of phrases. -/
inductive Kind where
  | word
  | call
  | app
  | lambda
deriving DecidableEq

/-- The kind of a phrase. -/
def kind : Phrase → Kind
  | word _ => .word
  | call _ _ => .call
  | app _ _ => .app
  | lambda _ => .lambda

mutual

/-- The text of a phrase that stands below `depth` binders. -/
def text (binder : Nat → List Char) (depth : Nat) : Phrase → List Char
  | word letters => letters
  | call symbol args => symbol ++ bracketed ([',', ' '].intercalate (texts binder depth args))
  | app function argument =>
    enclosed (function.kind == .lambda) (text binder depth function) ++
      ' ' :: enclosed (argument.kind == .app || argument.kind == .lambda) (text binder depth argument)
  | lambda body => '\\' :: (binder depth ++ '.' :: text binder (depth + 1) body)

/-- The text of each of the phrases. -/
def texts (binder : Nat → List Char) (depth : Nat) : List Phrase → List (List Char)
  | [] => []
  | p :: ps => text binder depth p :: texts binder depth ps

end

theorem texts_eq_map (binder : Nat → List Char) (depth : Nat) (ps : List Phrase) :
    texts binder depth ps = ps.map (text binder depth) := by
  induction ps with
  | nil => rfl
  | cons p ps ih => rw [texts, List.map_cons, ih]

/-- Leaves and symbols are words. -/
inductive Legible : Phrase → Prop
  | word {letters : List Char} (hletters : Plain letters) : Legible (word letters)
  | call {symbol : List Char} {args : List Phrase} (hsymbol : Plain symbol) (hargs : ∀ a ∈ args, Legible a) :
    Legible (call symbol args)
  | app {function argument : Phrase} (hfunction : Legible function) (hargument : Legible argument) :
    Legible (app function argument)
  | lambda {body : Phrase} (hbody : Legible body) : Legible (lambda body)

variable {binder : Nat → List Char} {depth : Nat} {p q f a body : Phrase} {symbol letters : List Char}
  {args : List Phrase}

/-! ### What a text shows -/

theorem entry_texts (h : ∀ a ∈ args, Entry (a.text binder depth)) : ∀ t ∈ texts binder depth args, Entry t := by
  rw [texts_eq_map]
  exact List.forall_mem_map.mpr h

/-- Entries in a row. -/
theorem balanced_row (h : ∀ t ∈ texts binder depth args, Entry t) :
    Balanced ([',', ' '].intercalate (texts binder depth args)) :=
  .intercalate (.of_not_mem (by decide) (by decide)) fun t ht => (h t ht).balanced

section

variable (hbinder : ∀ d, Plain (binder d))

include hbinder

/-- In the text of a phrase brackets are balanced, and commas stand inside of them. -/
theorem Legible.entry (hp : p.Legible) (depth : Nat) : Entry (p.text binder depth) := by
  induction hp generalizing depth with
  | word hletters => exact hletters.entry
  | call hsymbol _ ih => exact hsymbol.entry.append (.bracketed (balanced_row (entry_texts fun a ha => ih a ha depth)))
  | app _ _ ihf iha =>
    have hblank : Entry [' '] := .singleton (by decide) (by decide) (by decide)
    exact ((ihf depth).enclosed _).append (hblank.append ((iha depth).enclosed _))
  | lambda _ ih =>
    have hmark : Entry ['\\'] := .singleton (by decide) (by decide) (by decide)
    have hdot : Entry ['.'] := .singleton (by decide) (by decide) (by decide)
    exact hmark.append ((hbinder depth).entry.append (hdot.append (ih (depth + 1))))

/-- Only a lambda begins with the mark of one: a function that is one is put in brackets. -/
theorem Legible.lambda_iff (hp : p.Legible) : p.kind = .lambda ↔ ∃ rest, p.text binder depth = '\\' :: rest := by
  constructor
  · intro hk
    cases hp with
    | lambda _ => exact ⟨_, rfl⟩
    | _ => cases hk
  · rintro ⟨rest, h⟩
    induction hp generalizing rest with
    | word hletters => exact absurd h (hletters.ne_cons (by decide) rest)
    | call hsymbol _ _ => exact absurd h (hsymbol.append_ne_cons (by decide) _ rest)
    | @app function argument hfunction _ ih _ =>
      rw [text] at h
      cases hk : function.kind == .lambda with
      | true =>
        rw [hk, enclosed, if_pos rfl] at h
        exact absurd (List.cons.inj h).1 (by decide)
      | false =>
        rw [hk, enclosed, if_neg Bool.false_ne_true] at h
        obtain ⟨c, front, hfront⟩ := List.exists_cons_of_ne_nil (hfunction.entry hbinder depth).ne_nil
        rw [hfront, List.cons_append, List.cons.injEq] at h
        rw [ih front (by rw [hfront, h.1])] at hk
        cases hk
    | lambda _ _ => rfl

/-- Outside of brackets a blank stands behind a function only. -/
theorem Legible.app_iff (hp : p.Legible) :
    p.kind = .app ↔ p.kind ≠ .lambda ∧ ¬Shelters ' ' (p.text binder depth) := by
  cases hp with
  | word hletters => exact iff_of_false (by simp [kind]) fun h => h.2 (hletters.shelters (by decide))
  | call hsymbol hargs =>
    refine iff_of_false (by simp [kind]) fun h => h.2 ?_
    have hrow := balanced_row (entry_texts fun a ha => (hargs a ha).entry hbinder depth)
    exact .append hsymbol.balanced.closed (hsymbol.shelters (by decide)) (.bracketed hrow (by decide) (by decide))
  | app hf ha =>
    refine iff_of_true rfl ⟨by simp [kind], fun h => ?_⟩
    exact h.ne_append ((hf.entry hbinder depth).enclosed _).balanced.closed rfl
  | lambda _ => exact iff_of_false (by simp [kind]) fun h => h.1 rfl

/-- An argument has no blank outside of brackets. -/
theorem Legible.argument_blank (hp : p.Legible) :
    Shelters ' ' (enclosed (p.kind == .app || p.kind == .lambda) (p.text binder depth)) := by
  cases hk : p.kind == .app || p.kind == .lambda with
  | true => exact .bracketed (hp.entry hbinder depth).balanced (by decide) (by decide)
  | false =>
    simp only [Bool.or_eq_false_iff, beq_eq_false_iff_ne] at hk
    by_contra h
    exact hk.1 ((hp.app_iff hbinder).mpr ⟨hk.2, h⟩)

omit hbinder in
/-- Of the two kinds that remain, words have no brackets. -/
theorem Legible.word_iff (hp : p.Legible) :
    p.kind = .word ↔ p.kind ≠ .lambda ∧ p.kind ≠ .app ∧ '(' ∉ p.text binder depth := by
  cases hp with
  | word hletters => exact iff_of_true rfl ⟨by simp [kind], by simp [kind], hletters.not_mem (by decide)⟩
  | call _ _ =>
    refine iff_of_false (by simp [kind]) fun h => h.2.2 ?_
    exact List.mem_append_right _ List.mem_cons_self
  | app _ _ => exact iff_of_false (by simp [kind]) fun h => h.2.1 rfl
  | lambda _ => exact iff_of_false (by simp [kind]) fun h => h.1 rfl

/-- **The kind of a phrase shows in its text.** -/
theorem kind_eq (hp : p.Legible) (hq : q.Legible) (h : p.text binder depth = q.text binder depth) :
    p.kind = q.kind := by
  have hlambda : p.kind = .lambda ↔ q.kind = .lambda := by
    rw [hp.lambda_iff hbinder, hq.lambda_iff hbinder, h]
  have happ : p.kind = .app ↔ q.kind = .app := by
    rw [hp.app_iff hbinder, hq.app_iff hbinder, h, ne_eq, ne_eq, hlambda]
  have hword : p.kind = .word ↔ q.kind = .word := by
    rw [hp.word_iff, hq.word_iff, h, ne_eq, ne_eq, ne_eq, ne_eq, hlambda, happ]
  cases hk : p.kind <;> cases hk' : q.kind <;> simp_all

/-- No phrase is as a whole put in brackets. -/
theorem Legible.ne_bracketed (hq : q.Legible) {t : List Char} (ht : Balanced t) :
    q.text binder depth ≠ bracketed t := by
  intro h
  cases hq with
  | word hletters => exact hletters.ne_cons (by decide) _ h
  | call hsymbol _ => exact hsymbol.append_ne_cons (by decide) _ _ h
  | @app function argument hf ha =>
    have hblank : ¬Shelters ' ' ((Phrase.app function argument).text binder depth) :=
      (((Legible.app hf ha).app_iff hbinder).mp rfl).2
    rw [h] at hblank
    exact hblank (.bracketed ht (by decide) (by decide))
  | lambda _ => exact absurd (List.cons.inj h).1 (by decide)

/-- An operand is read in one way, whether it is in brackets or not. -/
theorem text_eq_of_enclosed_eq (hp : p.Legible) (hq : q.Legible) {b c : Bool}
    (h : enclosed b (p.text binder depth) = enclosed c (q.text binder depth)) :
    p.text binder depth = q.text binder depth := by
  have hp' := (hp.entry hbinder depth).balanced
  have hq' := (hq.entry hbinder depth).balanced
  cases b <;> cases c
  · exact h
  · exact absurd h (hp.ne_bracketed hbinder hq')
  · exact absurd h.symm (hq.ne_bracketed hbinder hp')
  · exact List.append_cancel_right (List.cons.inj h).2

/-- **Phrases with the same text are the same.** -/
theorem eq_of_text_eq (hp : p.Legible) (hq : q.Legible) (h : p.text binder depth = q.text binder depth) : p = q := by
  -- the text shows the kind of the other phrase, so only the case of the same kind is left of it
  induction hp generalizing q depth with
  | word hletters =>
    have hkind := kind_eq hbinder (.word hletters) hq h
    cases hq with
    | word _ => exact congrArg word h
    | _ => cases hkind
  | @call symbol args hsymbol hargs ih =>
    have hkind := kind_eq hbinder (.call hsymbol hargs) hq h
    cases hq with
    | @call symbol' args' hsymbol' hargs' =>
      obtain ⟨rfl, hrow⟩ := first_mark hsymbol.balanced.closed hsymbol'.balanced.closed (hsymbol.shelters (by decide))
        (hsymbol'.shelters (by decide)) h
      have htexts := eq_of_intercalate_eq (entry_texts fun a ha => (hargs a ha).entry hbinder depth)
        (entry_texts fun a ha => (hargs' a ha).entry hbinder depth) (List.append_cancel_right hrow)
      rw [texts_eq_map, texts_eq_map] at htexts
      rw [list_eq_of_map_eq htexts fun a ha b hb hab => ih a ha (hargs' b hb) hab]
    | _ => cases hkind
  | app hf ha ihf iha =>
    have hkind := kind_eq hbinder (.app hf ha) hq h
    cases hq with
    | app hf' ha' =>
      -- functions may have blanks, arguments have none outside of brackets: the last blank is the one between them
      obtain ⟨hfunction, hargument⟩ := last_mark (by decide) (by decide)
        ((ha.entry hbinder depth).enclosed _).balanced.closed ((ha'.entry hbinder depth).enclosed _).balanced.closed
        (ha.argument_blank hbinder) (ha'.argument_blank hbinder) h
      rw [ihf hf' (text_eq_of_enclosed_eq hbinder hf hf' hfunction),
        iha ha' (text_eq_of_enclosed_eq hbinder ha ha' hargument)]
    | _ => cases hkind
  | lambda hbody ih =>
    have hkind := kind_eq hbinder (.lambda hbody) hq h
    cases hq with
    | lambda hbody' =>
      have hbody := List.append_cancel_left (List.cons.inj h).2
      rw [ih hbody' (List.cons.inj hbody).2]
    | _ => cases hkind

end

end Phrase

end TermGraph

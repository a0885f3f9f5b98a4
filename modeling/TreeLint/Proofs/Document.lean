import Mathlib
import TreeLint.Layout.Document

namespace TreeLint.Document

/-!
# Parts of documents

* `parts` lists a document and the documents inside it, in printing order; what is said of every
  token of a document is said of its parts.
* `TokensAll P d`: every token of `d` has the property `P`. `TokensFreeOf x d` is the case that no
  token holds the character `x`; texts may hold it.
* `hasBreak_of_mem_parts`: a line break of a part is one of the whole document.
* The functions on lists of documents are given by those on documents (`flat_concat`,
  `hasBreakAny_eq_false_iff`), so that a proof about documents is one induction.
-/

/-- Induction over a document: a property of all documents in a row passes to the row. -/
@[elab_as_elim, induction_eliminator]
theorem induct {P : Document → Prop} (token : ∀ t, P (token t)) (text : ∀ t, P (text t))
    (concat : ∀ ds, (∀ d ∈ ds, P d) → P (concat ds)) (space : P space) (lineBreak : P lineBreak)
    (group : ∀ d levels, P d → P (group d levels)) (d : Document) : P d :=
  match d with
  | .token t => token t
  | .text t => text t
  | .concat ds => concat ds fun d _ => induct token text concat space lineBreak group d
  | .space => space
  | .lineBreak => lineBreak
  | .group d levels => group d levels (induct token text concat space lineBreak group d)

/-! ### Parts -/

mutual

/-- The document and the documents inside it, in printing order. -/
def parts : Document → List Document
  | token t => [token t]
  | text t => [text t]
  | concat ds => concat ds :: partsAll ds
  | space => [space]
  | lineBreak => [lineBreak]
  | group d levels => group d levels :: parts d

/-- The parts of several documents. -/
def partsAll : List Document → List Document
  | [] => []
  | d :: ds => parts d ++ partsAll ds

end

/-- The parts of several documents are those of each of them. -/
theorem mem_partsAll {c : Document} {ds : List Document} :
    c ∈ partsAll ds ↔ ∃ d ∈ ds, c ∈ d.parts := by
  induction ds with
  | nil => simp [partsAll]
  | cons d ds ih => simp [partsAll, ih]

/-- A row has itself and the parts of its documents as parts. -/
theorem mem_parts_concat {c : Document} {ds : List Document} :
    c ∈ (concat ds).parts ↔ c = concat ds ∨ ∃ d ∈ ds, c ∈ d.parts := by
  rw [parts, List.mem_cons, mem_partsAll]

/-- A group has itself and the parts of its contents as parts. -/
theorem mem_parts_group {c d : Document} {levels : UInt8} :
    c ∈ (group d levels).parts ↔ c = group d levels ∨ c ∈ d.parts := by
  rw [parts, List.mem_cons]

/-! ### Tokens -/

section Tokens

/-- Every token of the document has the property `P`. -/
def TokensAll (P : String → Prop) (d : Document) : Prop := ∀ t, token t ∈ d.parts → P t

variable {P : String → Prop} {x : Char}

/-- The only token of a token is the token itself. -/
theorem tokensAll_token {t : String} : (token t).TokensAll P ↔ P t := by
  simp [TokensAll, parts]

theorem tokensAll_text (t : String) : (text t).TokensAll P := by
  simp [TokensAll, parts]

theorem tokensAll_space : space.TokensAll P := by
  simp [TokensAll, parts]

theorem tokensAll_lineBreak : lineBreak.TokensAll P := by
  simp [TokensAll, parts]

/-- The tokens of a row are those of its documents. -/
theorem tokensAll_concat {ds : List Document} :
    (concat ds).TokensAll P ↔ ∀ d ∈ ds, d.TokensAll P := by
  simp only [TokensAll, mem_parts_concat, reduceCtorEq, false_or]
  exact ⟨fun h d hd t ht => h t ⟨d, hd, ht⟩, fun h t ⟨d, hd, ht⟩ => h d hd t ht⟩

/-- A group has no tokens of its own. -/
theorem tokensAll_group {d : Document} {levels : UInt8} :
    (group d levels).TokensAll P ↔ d.TokensAll P := by
  simp only [TokensAll, mem_parts_group, reduceCtorEq, false_or]

/-- No token of the document holds the character `x`. -/
def TokensFreeOf (x : Char) (d : Document) : Prop := ∀ t, token t ∈ d.parts → x ∉ t.toList

@[simp] theorem tokensFreeOf_token {t : String} : (token t).TokensFreeOf x ↔ x ∉ t.toList :=
  tokensAll_token (P := fun t => x ∉ t.toList)

@[simp] theorem tokensFreeOf_text (t : String) : (text t).TokensFreeOf x := tokensAll_text t

@[simp] theorem tokensFreeOf_space : space.TokensFreeOf x := tokensAll_space

@[simp] theorem tokensFreeOf_lineBreak : lineBreak.TokensFreeOf x := tokensAll_lineBreak

@[simp] theorem tokensFreeOf_concat {ds : List Document} :
    (concat ds).TokensFreeOf x ↔ ∀ d ∈ ds, d.TokensFreeOf x :=
  tokensAll_concat

@[simp] theorem tokensFreeOf_group {d : Document} {levels : UInt8} :
    (group d levels).TokensFreeOf x ↔ d.TokensFreeOf x :=
  tokensAll_group

end Tokens

/-! ### Line breaks -/

/-- Several documents have no line break exactly if none of them has one. -/
theorem hasBreakAny_eq_false_iff {ds : List Document} :
    hasBreakAny ds = false ↔ ∀ d ∈ ds, d.hasBreak = false := by
  induction ds with
  | nil => simp [hasBreakAny]
  | cons d ds ih => simp [hasBreakAny, ih]

/-- A line break in two rows is in one of them. -/
@[simp] theorem hasBreakAny_append (ds es : List Document) :
    hasBreakAny (ds ++ es) = (hasBreakAny ds || hasBreakAny es) := by
  induction ds with
  | nil => rfl
  | cons d ds ih => rw [List.cons_append, hasBreakAny, hasBreakAny, ih, Bool.or_assoc]

/-- A document without line breaks has no part with one. -/
theorem hasBreak_of_mem_parts {c d : Document} (hc : c ∈ d.parts) (h : d.hasBreak = false) :
    c.hasBreak = false := by
  induction d with
  | token t | text t | space =>
    rw [parts, List.mem_singleton] at hc
    exact hc ▸ h
  | lineBreak => cases h
  | concat ds ih =>
    rcases mem_parts_concat.mp hc with rfl | ⟨d, hd, hc⟩
    · exact h
    · rw [hasBreak, hasBreakAny_eq_false_iff] at h
      exact ih d hd hc (h d hd)
  | group d levels ih =>
    rcases mem_parts_group.mp hc with rfl | hc
    · exact h
    · rw [hasBreak] at h
      exact ih hc h

/-! ### The flat text -/

/-- The flat text of several documents is that of one after the other. -/
theorem toList_flatAll (ds : List Document) :
    (flatAll ds).toList = ds.flatMap fun d => d.flat.toList := by
  induction ds with
  | nil => rfl
  | cons d ds ih => rw [flatAll, String.toList_append, ih, List.flatMap_cons]

/-- The flat text of a row is that of its documents, one after the other. -/
theorem toList_flat_concat (ds : List Document) :
    (concat ds).flat.toList = ds.flatMap fun d => d.flat.toList := by
  rw [flat, toList_flatAll]

end TreeLint.Document

import Mathlib
import TreeLint.Rule.Traversal

namespace TreeLint

/-!
# What a collector gathers

* `Collector.addAll_eq`: adding findings appends the diagnostics of those whose categories are
  enabled (`Collector.diagnosed`) and changes nothing else.
* `collector_react` says the same of a reaction.
* `Collector.suppressed_of_mem_diagnosed`: the suppressions in force decide about their flags.
* `Diagnostic.unflagged` and `Collector.unflagged` forget what is suppressed.
-/

/-- The diagnostic as if nothing were suppressed. -/
def Diagnostic.unflagged (d : Diagnostic) : Diagnostic := { d with suppressed := false }

namespace Collector

@[simp] theorem category_diagnose (c : Collector) (f : Finding) :
    (c.diagnose f).category = f.category := by
  unfold diagnose
  cases f.fix <;> rfl

@[simp] theorem suppressed_diagnose (c : Collector) (f : Finding) :
    (c.diagnose f).suppressed = c.isSuppressed f.category := rfl

/-- The diagnostics of several findings; those of disabled categories have none. -/
def diagnosed (c : Collector) (fs : List Finding) : List Diagnostic :=
  (fs.filter fun f => c.isEnabled f.category).map c.diagnose

/-- Findings are appended as diagnostics, and nothing else changes. -/
theorem addAll_eq (c : Collector) (fs : List Finding) :
    c.addAll fs = { c with diagnostics := c.diagnostics ++ c.diagnosed fs } := by
  induction fs generalizing c with
  | nil =>
    show c = { c with diagnostics := c.diagnostics ++ [] }
    rw [List.append_nil]
  | cons f fs ih =>
    show (c.add f).addAll fs = _
    rw [ih]
    by_cases henabled : c.isEnabled f.category = true
    · have hadd : c.add f = { c with diagnostics := c.diagnostics ++ [c.diagnose f] } :=
        if_pos henabled
      have hcons : c.diagnosed (f :: fs) = c.diagnose f :: c.diagnosed fs := by
        simp [diagnosed, henabled]
      rw [hadd, hcons, List.append_cons c.diagnostics _ (c.diagnosed fs)]
      rfl
    · have hadd : c.add f = c := if_neg henabled
      have hcons : c.diagnosed (f :: fs) = c.diagnosed fs := by simp [diagnosed, henabled]
      rw [hadd, hcons]

/-- What is added is flagged by the suppressions in force. -/
theorem suppressed_of_mem_diagnosed {c : Collector} {fs : List Finding} {d : Diagnostic}
    (h : d ∈ c.diagnosed fs) : d.suppressed = c.isSuppressed d.category := by
  obtain ⟨f, -, rfl⟩ := List.mem_map.mp h
  rw [suppressed_diagnose, category_diagnose]

/-- The collector as if nothing were or had been suppressed. -/
def unflagged (c : Collector) : Collector :=
  { c with diagnostics := c.diagnostics.map Diagnostic.unflagged, suppressions := [] }

end Collector

/-- Of a collector a reaction changes the diagnostics only, to which it adds what is diagnosed of
    its findings. -/
theorem collector_react (s : WalkState) (r : Rule) (phase : Phase) (p : Path)
    (reaction : Reaction) :
    (s.react r phase p reaction).collector = { s.collector with
      diagnostics := s.collector.diagnostics ++ s.collector.diagnosed reaction.findings } :=
  s.collector.addAll_eq reaction.findings

end TreeLint

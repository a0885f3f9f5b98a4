import Mathlib
import TreeLint.Rule.Registry

namespace TreeLint.Registry

/-!
# Registering rules

* `register_of_new`: a rule with a new name is put after the others.
* `registerAll_of_nodup`: so are several rules, if their names are new and distinct.
* `afterCalls` is the registry after any calls, of which some may fail, and `succeeded` the rules
  whose calls did not. `call_cases` says what one call does; `rules_afterCalls` and
  `mem_names_afterCalls` follow by induction on the calls.
* `afterCalls_registers`: only a second call with a name fails, and then changes nothing; names and
  lookups show the rules that were registered, in order.
-/

/-- A rule with a new name is put after the others. -/
theorem register_of_new {registry : Registry} {r : Rule} (h : r.name ∉ registry.names) :
    ∃ registry', registry.register r = .ok registry' ∧
      registry'.rules = registry.rules ++ [r] ∧ registry'.supports = registry.supports :=
  ⟨_, dif_neg h, rfl, rfl⟩

/-- Rules with names that are new and distinct are registered, all of them and in order. -/
theorem registerAll_of_nodup (registry : Registry) {rules : List Rule}
    (h : ((registry.rules ++ rules).map Rule.name).Nodup) :
    ∃ registry', registry.registerAll rules = (.ok (), registry') ∧
      registry'.rules = registry.rules ++ rules ∧ registry'.supports = registry.supports := by
  induction rules generalizing registry with
  | nil => exact ⟨registry, rfl, (List.append_nil _).symm, rfl⟩
  | cons r rules ih =>
    have hname : r.name ∉ registry.names := by
      rw [List.map_append, List.map_cons, List.nodup_append] at h
      exact fun hmem => h.2.2 r.name hmem r.name List.mem_cons_self rfl
    obtain ⟨next, hnext, hrules, hsupports⟩ := register_of_new hname
    rw [List.append_cons, ← hrules] at h
    obtain ⟨registry', hall, hrules', hsupports'⟩ := ih next h
    refine ⟨registry', ?_, ?_, hsupports'.trans hsupports⟩
    · rw [registerAll, hnext]
      exact hall
    · rw [hrules', hrules, List.append_cons registry.rules r rules]

/-! ### Calls in turn -/

/-- Register one rule: the answer, and the registry afterwards. -/
def call (registry : Registry) (rule : Rule) : Except Error Unit × Registry :=
  registry.registerAll [rule]

/-- The registry after the calls, in order. A call that fails does not keep the next one from being
    made. -/
def afterCalls (calls : List Rule) : Registry :=
  calls.foldl (fun registry rule => (registry.call rule).2) empty

/-- The answer to a call that comes after others. -/
def answerTo (calls : List Rule) (rule : Rule) : Except Error Unit :=
  ((afterCalls calls).call rule).1

/-- The rules whose calls succeed, in the order of the calls. -/
def succeeded (calls : List Rule) : List Rule :=
  (calls.zipIdx.filter fun x => (answerTo (calls.take x.2) x.1).isOk).map (·.1)

/-- **What a call does.** It fails and changes nothing, or it puts the rule after the others. -/
theorem call_cases (registry : Registry) (rule : Rule) :
    (rule.name ∈ registry.names ∧
      registry.call rule = (.error (.duplicateRule rule.name), registry)) ∨
    (rule.name ∉ registry.names ∧
      ∃ next, registry.call rule = (.ok (), next) ∧ next.rules = registry.rules ++ [rule]) := by
  by_cases hname : rule.name ∈ registry.names
  · left
    refine ⟨hname, ?_⟩
    have hfails : registry.register rule = .error (.duplicateRule rule.name) := dif_pos hname
    rw [call, registerAll, hfails]
  · right
    obtain ⟨next, hnext, hrules, -⟩ := register_of_new hname
    refine ⟨hname, next, ?_, hrules⟩
    rw [call, registerAll, hnext]
    rfl

theorem afterCalls_concat (calls : List Rule) (rule : Rule) :
    afterCalls (calls ++ [rule]) = ((afterCalls calls).call rule).2 := by
  unfold afterCalls
  rw [List.foldl_append]
  rfl

theorem succeeded_concat (calls : List Rule) (rule : Rule) :
    succeeded (calls ++ [rule])
      = succeeded calls ++ if (answerTo calls rule).isOk then [rule] else [] := by
  unfold succeeded
  -- The earlier calls were made after the same calls as before.
  have hearlier : (calls.zipIdx.filter fun x =>
        (answerTo ((calls ++ [rule]).take x.2) x.1).isOk)
      = calls.zipIdx.filter fun x => (answerTo (calls.take x.2) x.1).isOk := by
    apply List.filter_congr
    intro x hx
    have hlt : x.2 < calls.length := by simpa using List.snd_lt_of_mem_zipIdx hx
    rw [List.take_append_of_le_length (Nat.le_of_lt hlt)]
  rw [List.zipIdx_append, List.filter_append, List.map_append, hearlier]
  by_cases hok : (answerTo calls rule).isOk = true
  · simp [hok]
  · simp [hok]

/-- The registry holds the rules whose calls succeeded. -/
theorem rules_afterCalls (calls : List Rule) : (afterCalls calls).rules = succeeded calls := by
  induction calls using List.reverseRecOn with
  | nil => rfl
  | append_singleton calls rule ih =>
    rw [afterCalls_concat, succeeded_concat, answerTo]
    rcases call_cases (afterCalls calls) rule with ⟨-, hcall⟩ | ⟨-, next, hcall, hrules⟩
    · rw [hcall, ih]
      simp [Except.isOk, Except.toBool]
    · rw [hcall, hrules, ih]
      simp [Except.isOk, Except.toBool]

/-- A name is taken as soon as it was in any call, whether that call succeeded or not. -/
theorem mem_names_afterCalls (calls : List Rule) (name : String) :
    name ∈ (afterCalls calls).names ↔ name ∈ calls.map Rule.name := by
  induction calls using List.reverseRecOn with
  | nil => rfl
  | append_singleton calls rule ih =>
    rw [afterCalls_concat, List.map_append, List.mem_append, ← ih]
    rcases call_cases (afterCalls calls) rule with ⟨hname, hcall⟩ | ⟨-, next, hcall, hrules⟩
    · -- The call fails because an earlier one had its name.
      rw [hcall]
      refine ⟨Or.inl, ?_⟩
      rintro (h | h)
      · exact h
      · rw [List.map_singleton, List.mem_singleton] at h
        rw [h]
        exact hname
    · rw [hcall, names, hrules, List.map_append, List.mem_append]
      rfl

theorem names_afterCalls (calls : List Rule) :
    (afterCalls calls).names = (succeeded calls).map Rule.name := by
  rw [names, rules_afterCalls]

/-- **Registration.** After any calls, with any names and kinds and however many failures between
    them: the next call fails if and only if its name is registered, and then leaves the registry as
    it is; the registered names are those of all calls made so far. The names are distinct and in
    the order in which they were registered. For every kind the registered rules that accept it are
    found, in that order, and no name twice. -/
theorem afterCalls_registers (calls : List Rule) :
    (∀ rule, rule.name ∈ (succeeded calls).map Rule.name →
      answerTo calls rule = .error (.duplicateRule rule.name) ∧
        afterCalls (calls ++ [rule]) = afterCalls calls) ∧
    (∀ rule, rule.name ∉ (succeeded calls).map Rule.name → answerTo calls rule = .ok ()) ∧
    (∀ name, name ∈ (succeeded calls).map Rule.name ↔ name ∈ calls.map Rule.name) ∧
    (afterCalls calls).names.Nodup ∧
    (afterCalls calls).names = (succeeded calls).map Rule.name ∧
    ∀ kind, (afterCalls calls).lookup kind = (succeeded calls).filter (·.accepts kind) ∧
      (((afterCalls calls).lookup kind).map Rule.name).Nodup := by
  have hnames := names_afterCalls calls
  refine ⟨?_, ?_, ?_, (afterCalls calls).names_nodup, hnames, ?_⟩
  · intro rule hname
    rw [← hnames] at hname
    rcases call_cases (afterCalls calls) rule with ⟨-, hcall⟩ | ⟨hnew, -⟩
    · rw [answerTo, afterCalls_concat, hcall]
      exact ⟨rfl, rfl⟩
    · exact absurd hname hnew
  · intro rule hname
    rw [← hnames] at hname
    rcases call_cases (afterCalls calls) rule with ⟨htaken, -⟩ | ⟨-, next, hcall, -⟩
    · exact absurd htaken hname
    · rw [answerTo, hcall]
  · intro name
    rw [← hnames]
    exact mem_names_afterCalls calls name
  · intro kind
    rw [lookup_eq_filter, rules_afterCalls]
    refine ⟨rfl, ?_⟩
    -- The rules for a kind are some of all rules, so their names differ too.
    have hsublist : ((succeeded calls).filter (·.accepts kind)).Sublist (succeeded calls) :=
      List.filter_sublist
    rw [names] at hnames
    exact (hnames ▸ (afterCalls calls).names_nodup).sublist (hsublist.map Rule.name)

/-- A rule that looks at some kinds and does nothing there. -/
def silent (name : String) (kinds : List Kind) : Rule where
  name := name
  category := ⟨name⟩
  accepts := kinds.contains
  enter := none
  exit := none

/-- Calls of the sample: the second one has a name that is taken. -/
def sampleCalls : List Rule :=
  [silent "a" [.comment], silent "a" [.element], silent "b" [.comment, .element]]

/-- The failing call leaves no trace in the tables: the rule after it is found for both of its
    kinds, and the rejected one for none. -/
theorem afterCalls_registers_sample :
    answerTo [silent "a" [.comment]] (silent "a" [.element]) = .error (.duplicateRule "a") ∧
      afterCalls [silent "a" [.comment], silent "a" [.element]]
        = afterCalls [silent "a" [.comment]] ∧
      (afterCalls sampleCalls).names = ["a", "b"] ∧
      ((afterCalls sampleCalls).lookup .comment).map Rule.name = ["a", "b"] ∧
      ((afterCalls sampleCalls).lookup .element).map Rule.name = ["b"] ∧
      (((afterCalls sampleCalls).lookup .element).map Rule.name).Nodup := by
  obtain ⟨hfails, -⟩ := afterCalls_registers [silent "a" [.comment]]
  obtain ⟨hanswer, hsame⟩ := hfails (silent "a" [.element]) (by decide)
  obtain ⟨-, -, -, -, -, hlookup⟩ := afterCalls_registers sampleCalls
  exact ⟨hanswer, hsame, by decide, by decide, by decide, (hlookup .element).2⟩

end TreeLint.Registry

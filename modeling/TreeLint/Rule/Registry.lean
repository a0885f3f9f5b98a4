import TreeLint.Error
import TreeLint.Rule.Basic

namespace TreeLint

/-!
# The rule registry

* `Registry` holds rules in the order of their registration; no two have one name. Beside them it
  keeps, for each kind, a table of the positions of the rules that look at it.
* `Registry.lookup` gives the rules for a kind. It reads the table of the kind and never asks a
  rule; that it finds what a search through the rules would find is `Registry.lookup_eq_filter`.
* The schema of a registry is the set of kinds that a tree may contain.
-/

/-- The positions of the rules that look at nodes of a kind, in increasing order. -/
def Rule.positions (rules : List Rule) (kind : Kind) : List Nat :=
  (rules.zipIdx.filter (·.1.accepts kind)).map (·.2)

/-- The positions for each kind, in the order of the schema. -/
def Rule.tables (rules : List Rule) : List (List Nat) := Kind.all.map (Rule.positions rules)

/-- Rules in registration order with their tables, and the kinds that trees may contain. -/
structure Registry where
  rules : List Rule
  supports : Kind → Bool
  names_nodup : (rules.map Rule.name).Nodup
  /-- The table of a kind stands at the index of the kind. -/
  tables : List (List Nat) := Rule.tables rules
  tables_eq : tables = Rule.tables rules := by rfl

namespace Registry

/-- No rules; every kind is supported. -/
def empty : Registry where
  rules := []
  supports := fun _ => true
  names_nodup := List.nodup_nil

/-- The rule with the given name. -/
def get? (r : Registry) (name : String) : Option Rule := r.rules.find? (·.name = name)

/-- The names of the rules in registration order. -/
def names (r : Registry) : List String := r.rules.map Rule.name

def size (r : Registry) : Nat := r.rules.length

def isEmpty (r : Registry) : Bool := r.rules.isEmpty

/-- The rules that look at nodes of this kind, in registration order. -/
def lookup (r : Registry) (kind : Kind) : List Rule :=
  (r.tables.getD kind.index []).filterMap (r.rules[·]?)

/-- Enter a position at the end of the table of every kind that is accepted. -/
def enroll (accepts : Kind → Bool) (position : Nat) (tables : List (List Nat)) : List (List Nat) :=
  Kind.all.foldl
    (fun tables kind => tables.modify kind.index fun table =>
      if accepts kind then table ++ [position] else table)
    tables

/-- A rule that is added last has the last position in the table of every kind that it looks at. -/
theorem positions_append_singleton (rules : List Rule) (rule : Rule) (kind : Kind) :
    Rule.positions (rules ++ [rule]) kind =
      if rule.accepts kind then Rule.positions rules kind ++ [rules.length]
      else Rule.positions rules kind := by
  unfold Rule.positions
  rw [List.zipIdx_append, List.filter_append, List.map_append]
  split <;> simp [*]

/-- The position of a rule after the others is entered where it belongs. -/
theorem enroll_tables (rules : List Rule) (rule : Rule) :
    enroll rule.accepts rules.length (Rule.tables rules) = Rule.tables (rules ++ [rule]) := by
  -- Each kind has its own table, so every table is changed once.
  have h : enroll rule.accepts rules.length (Rule.tables rules) = Kind.all.map fun kind =>
      if rule.accepts kind then Rule.positions rules kind ++ [rules.length]
      else Rule.positions rules kind := rfl
  rw [h]
  exact List.map_congr_left fun kind _ => (positions_append_singleton rules rule kind).symm

/-- Add a rule after the others; its name must be new. -/
def register (r : Registry) (rule : Rule) : Except Error Registry :=
  if h : rule.name ∈ r.names then .error (.duplicateRule rule.name)
  else .ok {
    rules := r.rules ++ [rule]
    supports := r.supports
    names_nodup := by
      rw [List.map_append, List.nodup_append]
      refine ⟨r.names_nodup, by simp, fun a ha b hb hab => h ?_⟩
      rw [List.map_singleton, List.mem_singleton] at hb
      exact hb ▸ hab ▸ ha
    tables := enroll rule.accepts r.rules.length r.tables
    tables_eq := by
      rw [r.tables_eq]
      exact enroll_tables r.rules rule }

/-- Add several rules in order, up to the first whose name is taken. The rules before that one
    stay. -/
def registerAll (r : Registry) : List Rule → Except Error Unit × Registry
  | [] => (.ok (), r)
  | rule :: rules =>
    match r.register rule with
    | .ok next => next.registerAll rules
    | .error e => (.error e, r)

/-- Support the listed kinds and no others. -/
def withSchema (r : Registry) (kinds : List Kind) : Registry :=
  { r with supports := fun k => kinds.contains k }

/-! ### What the tables lead to -/

/-- The table of a kind holds the positions of the rules that look at it. -/
theorem getD_tables (rules : List Rule) (kind : Kind) :
    (Rule.tables rules).getD kind.index [] = Rule.positions rules kind := by
  cases kind <;> rfl

/-- The rule at a position is the one that the position was taken from. -/
theorem filterMap_positions (rules : List Rule) (kind : Kind) :
    (Rule.positions rules kind).filterMap (rules[·]?) = rules.filter (·.accepts kind) := by
  have hfound : ∀ x ∈ rules.zipIdx.filter (·.1.accepts kind), rules[x.2]? = some x.1 :=
    fun x hx => List.mem_zipIdx_iff_getElem?.mp (List.mem_filter.mp hx).1
  calc (Rule.positions rules kind).filterMap (rules[·]?)
      = ((rules.zipIdx.filter (·.1.accepts kind)).map fun x => rules[x.2]?).filterMap id := by
        rw [Rule.positions, List.filterMap_map, List.filterMap_map]
        rfl
    _ = ((rules.zipIdx.filter (·.1.accepts kind)).map fun x => some x.1).filterMap id := by
        rw [List.map_congr_left hfound]
    _ = (rules.zipIdx.filter (·.1.accepts kind)).map (·.1) := by
        rw [List.filterMap_map]
        exact congrFun List.filterMap_eq_map _
    _ = (rules.zipIdx.map (·.1)).filter (·.accepts kind) := by
        rw [List.filter_map]
        rfl
    _ = rules.filter (·.accepts kind) := by rw [List.zipIdx_map_fst]

/-- **The table of a kind leads to the rules for it**, and to no others. -/
theorem lookup_eq_filter (r : Registry) (kind : Kind) :
    r.lookup kind = r.rules.filter (·.accepts kind) := by
  unfold lookup
  rw [r.tables_eq, getD_tables]
  exact filterMap_positions r.rules kind

/-- Looked up are the rules that look at the kind. -/
theorem mem_lookup {r : Registry} {kind : Kind} {rule : Rule} :
    rule ∈ r.lookup kind ↔ rule ∈ r.rules ∧ rule.accepts kind = true := by
  rw [lookup_eq_filter, List.mem_filter]

end Registry

end TreeLint

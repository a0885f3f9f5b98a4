import Mathlib
import TreeLint.Proofs.Lockstep
import TreeLint.Proofs.Places
import TreeLint.Proofs.Scope

namespace TreeLint

/-!
# Which trees a walk rejects

Where no callback queues an edit, the walk goes over the tree as it stands, and it fails at the
first node that has an unsupported kind or lies deeper than the limit.

* `runRules_quiet`: rules that queue nothing leave the node.
* `Graft.IsFinite` says that no node of a graft stands below itself. A node may well stand in
  several places, as long as none of them is below another.
* `Registry.fault?` is what is wrong with a place by itself. `walk_quiet_result` gives the result of
  the walk of a finite graft: the first fault in document order, or the node.
* `traverse_rejects`: exactly the malformed trees are rejected. The error names the exact location
  of a node as far as the numbers of children fit a word; `traverse_rejects_wraps` is a document in
  which they do not.
-/

/-! ### Rules that queue nothing -/

/-- The state after rules were asked in turn about one and the same node. -/
def WalkState.consult (s : WalkState) (phase : Phase) (rules : List Rule) (p : Path) : WalkState :=
  rules.foldl (fun s r => (runRule r phase p s).2) s

section Quiet

variable {registry : Registry} (hquiet : registry.QueuesNothing)

include hquiet

/-- A rule that queues nothing leaves the node and the queue as they are. -/
theorem runRule_quiet {r : Rule} (hr : r ∈ registry.rules) (phase : Phase) (p : Path)
    (s : WalkState) :
    (runRule r phase p s).1 = some p.here.graft ∧ (runRule r phase p s).2.edits = s.edits := by
  cases hcallback : r.callback? phase with
  | none =>
    rw [runRule_of_none hcallback]
    exact ⟨rfl, rfl⟩
  | some callback =>
    have hedits : (s.react r phase p (callback p s.collector)).edits = s.edits := by
      show List.foldl _ s.edits ((callback p s.collector).requests p) = s.edits
      rw [hquiet r hr phase callback hcallback]
      rfl
    unfold runRule
    rw [hcallback]
    simp only
    split
    · rw [hedits, if_pos rfl]
      exact ⟨rfl, hedits⟩
    · exact ⟨rfl, rfl⟩

/-- Rules that queue nothing are all asked about the same node, and leave it. -/
theorem runRules_quiet {rules : List Rule} (hrules : ∀ r ∈ rules, r ∈ registry.rules)
    (phase : Phase) (p : Path) (s : WalkState) :
    runRules phase rules p s = (some p.here.graft, s.consult phase rules p) := by
  induction rules generalizing s with
  | nil => rfl
  | cons r rules ih =>
    have hfirst : runRule r phase p s = (some p.here.graft, (runRule r phase p s).2) :=
      Prod.ext (runRule_quiet hquiet (hrules r List.mem_cons_self) phase p s).1 rfl
    rw [runRules, hfirst]
    exact ih (fun r' hr' => hrules r' (List.mem_cons_of_mem r hr')) _

/-- So do all rules for a kind of node. -/
theorem runRules_lookup_quiet (phase : Phase) (kind : Kind) (p : Path) (s : WalkState) :
    runRules phase (registry.lookup kind) p s
      = (some p.here.graft, s.consult phase (registry.lookup kind) p) :=
  runRules_quiet hquiet (fun _ hr => (Registry.mem_lookup.mp hr).1) phase p s

end Quiet

/-! ### Finite grafts -/

namespace Graft

/-- A graft as a cursor. -/
def cursor : Cursor Graft := ⟨node, child, fun _ _ _ => rfl⟩

/-- The graft that the numbers of children lead to. -/
def follow? (g : Graft) (is : List Nat) : Option Graft := cursor.follow? g is

/-- No node stands below itself: no place holds an enclosing node, and no two places of which one is
    below the other hold the same node that is written out. -/
structure IsFinite (g : Graft) : Prop where
  loops : ∀ is h, g.follow? is = some h → [] ∉ h.loops
  written : ∀ is js h h', js ≠ [] → g.follow? is = some h → g.follow? (is ++ js) = some h' →
    h'.mark?.isSome = true → h.mark? ≠ h'.mark?

/-- No place of the graft holds a node that is written out and is one of the steps. -/
def IsFresh (g : Graft) (above : List Step) : Prop :=
  ∀ is h, g.follow? is = some h → h.mark?.isSome = true → ∀ st ∈ above, st.graft.mark? ≠ h.mark?

section Finite

variable {g : Graft} {above : List Step}

/-- In a finite graft no node is taken for its own ancestor. -/
theorem IsFinite.isLoop_eq_false (hg : g.IsFinite) (habove : g.IsFresh above) :
    g.isLoop above = false := by
  have hloops : g.loops.contains [] = false := by
    simpa using hg.loops [] g rfl
  have hmarks : (g.mark?.isSome && above.any (·.graft.mark? = g.mark?)) = false := by
    cases hmark : g.mark?.isSome with
    | false => rfl
    | true => simpa using fun st hst => habove [] g rfl hmark st hst
  rw [isLoop, hloops, hmarks]
  rfl

/-- The children of a finite graft are finite. -/
theorem IsFinite.child (hg : g.IsFinite) {i : Nat} {c : Node}
    (hc : g.node.children[i]? = some c) : (g.child i c).IsFinite where
  loops is h hh := hg.loops (i :: is) h ((cursor.follow?_cons hc is).trans hh)
  written is js h h' hjs hh hh' :=
    hg.written (i :: is) js h h' hjs ((cursor.follow?_cons hc is).trans hh)
      ((cursor.follow?_cons hc (is ++ js)).trans hh')

/-- Below a node of a finite graft, that node is not met again. -/
theorem IsFresh.child (habove : g.IsFresh above) (hg : g.IsFinite) {i : Nat} {c : Node}
    (hc : g.node.children[i]? = some c) (found : Node) (l : Location) :
    (g.child i c).IsFresh (⟨g, found, l⟩ :: above) := by
  intro is h hh hmark st hst
  have hh' : g.follow? (i :: is) = some h := (cursor.follow?_cons hc is).trans hh
  rcases List.mem_cons.mp hst with rfl | hst
  · exact hg.written [] (i :: is) g h (List.cons_ne_nil i is) rfl hh' hmark
  · exact habove (i :: is) h hh' hmark st hst

end Finite

/-- Below a plain node there are plain nodes only. -/
theorem exists_ofNode_of_follow? {n : Node} {is : List Nat} {h : Graft}
    (hh : (ofNode n).follow? is = some h) : ∃ m, h = ofNode m := by
  induction is generalizing n with
  | nil => exact ⟨n, (Option.some.inj hh).symm⟩
  | cons i is ih =>
    obtain ⟨c, -, hh⟩ := cursor.follow?_cons_eq_some.mp hh
    exact ih hh

/-- A tree by itself is finite. -/
theorem isFinite_ofNode (n : Node) : (ofNode n).IsFinite where
  loops is h hh := by
    obtain ⟨m, rfl⟩ := exists_ofNode_of_follow? hh
    exact List.not_mem_nil
  written is js h h' _ _ hh' hmark := by
    obtain ⟨m, rfl⟩ := exists_ofNode_of_follow? hh'
    exact absurd hmark Bool.false_ne_true

end Graft

/-! ### The first fault -/

namespace Registry

/-- The node `n` has an unsupported kind, or its place `is` lies deeper than the limit. -/
def Malformed (registry : Registry) (maxDepth : Nat) (is : List Nat) (n : Node) : Prop :=
  registry.supports n.kind = false ∨ maxDepth < is.length

/-- What is wrong with node `n` at place `is`. That its kind is not supported comes first. -/
def fault? (registry : Registry) (maxDepth : Nat) (is : List Nat) (n : Node) : Option Error :=
  if registry.supports n.kind then
    if maxDepth < is.length then
      some (.malformedTree (Location.ofNumbers is) (.tooDeep maxDepth))
    else none
  else some (.unhandledKind n.kind registryComponent)

/-- The first fault among places below the place `is`. -/
def firstFault? (registry : Registry) (maxDepth : Nat) (is : List Nat)
    (ps : List (List Nat × Node)) : Option Error :=
  ps.findSome? fun p => registry.fault? maxDepth (is ++ p.1) p.2

/-- A node has no fault exactly if it is not malformed. -/
theorem fault?_eq_none_iff {registry : Registry} {maxDepth : Nat} {is : List Nat} {n : Node} :
    registry.fault? maxDepth is n = none ↔ ¬ registry.Malformed maxDepth is n := by
  unfold fault? Malformed
  split
  · rename_i hsupports
    split
    · rename_i hdeep
      simp [hdeep]
    · rename_i hdeep
      simp [hsupports, hdeep]
  · rename_i hsupports
    simp [hsupports]

/-- That a node is its own ancestor is no fault of a node by itself. -/
theorem fault?_ne_ownAncestor (registry : Registry) (maxDepth : Nat) (is : List Nat) (n : Node)
    (l : Location) : registry.fault? maxDepth is n ≠ some (.malformedTree l .ownAncestor) := by
  unfold fault?
  split
  · split
    · simp
    · simp
  · simp

/-- The node itself is looked at before those below it. -/
theorem firstFault?_places (registry : Registry) (maxDepth : Nat) (is : List Nat) (n : Node) :
    registry.firstFault? maxDepth is n.places
      = (registry.fault? maxDepth is n).or
          (registry.firstFault? maxDepth is (Node.placesAll 0 n.children)) := by
  rw [firstFault?, Node.places_eq, List.findSome?_cons, List.append_nil]
  cases registry.fault? maxDepth is n with
  | none => rfl
  | some e => rfl

/-- One child is looked at with all below it before the next. -/
theorem firstFault?_placesAll_cons (registry : Registry) (maxDepth : Nat) (is : List Nat) (i : Nat)
    (c : Node) (cs : List Node) :
    registry.firstFault? maxDepth is (Node.placesAll i (c :: cs))
      = (registry.firstFault? maxDepth (is ++ [i]) c.places).or
          (registry.firstFault? maxDepth is (Node.placesAll (i + 1) cs)) := by
  simp only [firstFault?, Node.placesAll, List.findSome?_append, List.findSome?_map,
    Function.comp_def, List.append_assoc, List.singleton_append]

/-- The first fault of a tree is the fault of a place, and no place before it has any. -/
theorem exists_of_firstFault?_eq_some {registry : Registry} {maxDepth : Nat} {n : Node} {e : Error}
    (h : registry.firstFault? maxDepth [] n.places = some e) :
    ∃ is m, n.follow? is = some m ∧ registry.fault? maxDepth is m = some e ∧
      ∀ js m', n.follow? js = some m' → registry.Malformed maxDepth js m' → is ≤ js := by
  obtain ⟨before, ⟨is, m⟩, after, hplaces, hfault, hbefore⟩ := List.findSome?_eq_some_iff.mp h
  have hmem : (is, m) ∈ n.places := by
    rw [hplaces]
    exact List.mem_append_right before List.mem_cons_self
  refine ⟨is, m, Node.mem_places.mp hmem, hfault, fun js m' hjs hmalformed => ?_⟩
  have hmem' := Node.mem_places.mpr hjs
  -- Places before it have no fault, and places after it are greater.
  have hordered := n.pairwise_places
  rw [hplaces, List.map_append, List.map_cons, List.pairwise_append, List.pairwise_cons] at hordered
  rw [hplaces, List.mem_append, List.mem_cons] at hmem'
  rcases hmem' with hmem' | hmem' | hmem'
  · exact absurd hmalformed (fault?_eq_none_iff.mp (hbefore _ hmem'))
  · rw [(Prod.mk.inj hmem').1]
  · exact (hordered.2.1.1 js (List.mem_map.mpr ⟨(js, m'), hmem', rfl⟩)).le

/-- There is no first fault exactly if no node is malformed. -/
theorem firstFault?_eq_none_iff {registry : Registry} {maxDepth : Nat} {n : Node} :
    registry.firstFault? maxDepth [] n.places = none ↔
      ∀ is m, n.follow? is = some m → ¬ registry.Malformed maxDepth is m := by
  rw [firstFault?, List.findSome?_eq_none_iff]
  exact ⟨fun h is m hm => fault?_eq_none_iff.mp (h (is, m) (Node.mem_places.mpr hm)),
    fun h p hp => fault?_eq_none_iff.mpr (h p.1 p.2 (Node.mem_places.mp hp))⟩

end Registry

/-- The value, unless there is an error. -/
def unlessError {α : Type} (a : α) (e : Option Error) : Except Error α := e.elim (.ok a) .error

/-! ### The walk -/

section Walks

variable {registry : Registry} {maxDepth : Nat}

/-- The walk of children finds the first fault among their places, if the walk of each child
    does. -/
theorem walkChildren_result {visit : Nat → Node → WalkState → Walked (Option Node)} {is : List Nat}
    {i : Nat} {cs : List Node}
    (hvisit : ∀ j c, cs[j]? = some c → ∀ s, (visit (i + j) c s).1
      = unlessError (some c) (registry.firstFault? maxDepth (is ++ [i + j]) c.places))
    (pending : Option Suppression) (s : WalkState) :
    (walkChildren visit i pending cs s).1
      = unlessError cs (registry.firstFault? maxDepth is (Node.placesAll i cs)) := by
  induction cs generalizing i pending s with
  | nil => rfl
  | cons c cs ih =>
    have hfirst := hvisit 0 c rfl (s.under (scopeOf pending c))
    have hrest := ih (i := i + 1) fun j d hd => by
      have := hvisit (j + 1) d hd
      rwa [show i + (j + 1) = i + 1 + j by omega] at this
    rw [Nat.add_zero] at hfirst
    rw [registry.firstFault?_placesAll_cons]
    -- An error of this child stands before all errors of the others.
    cases hfault : registry.firstFault? maxDepth (is ++ [i]) c.places with
    | some e =>
      rw [hfault] at hfirst
      rw [walkChildren_cons_of_error cs (Prod.ext hfirst rfl)]
      rfl
    | none =>
      rw [hfault] at hfirst
      rw [walkChildren_cons_of_ok cs (Prod.ext hfirst rfl), Prod.map_fst, hrest, Option.none_or]
      cases registry.firstFault? maxDepth is (Node.placesAll (i + 1) cs) with
      | some e => rfl
      | none => rfl

/-- **The result of a quiet walk.** If no callback queues an edit, the walk of a finite graft gives
    the first fault among its places, or else its node. -/
theorem walk_quiet_result (hquiet : registry.QueuesNothing) {budget : Nat} {g : Graft}
    {is : List Nat} {above : List Step} (hbudget : is.length + budget = maxDepth + 1)
    (hg : g.IsFinite) (habove : g.IsFresh above) (s : WalkState) :
    (walk registry maxDepth budget g (Location.ofNumbers is) above s).1
      = unlessError (some g.node) (registry.firstFault? maxDepth is g.node.places) := by
  -- No level is left exactly below the limit, so the budget and the length of the place agree on
  -- whether a node is too deep.
  induction budget generalizing g is above s with
  | zero =>
    have hdeep : maxDepth < is.length := by omega
    rw [walk, registry.firstFault?_places, Registry.fault?, if_pos hdeep]
    split
    · rfl
    · rfl
  | succ budget ih =>
    have hdeep : ¬ maxDepth < is.length := by omega
    rw [registry.firstFault?_places, Registry.fault?, if_neg hdeep]
    by_cases hsupports : registry.supports g.node.kind = true
    · rw [if_pos hsupports, Option.none_or]
      have hloop := hg.isLoop_eq_false habove
      -- The faults below the node come after that of the node itself, and there is none of its own.
      have hbelow : (walkBelow registry maxDepth budget g.node g (Location.ofNumbers is) above
            (s.consult .enter (registry.lookup g.node.kind)
              ⟨⟨g, g.node, Location.ofNumbers is⟩, above⟩)).1
          = unlessError g.node.children
              (registry.firstFault? maxDepth is (Node.placesAll 0 g.node.children)) := by
        refine walkChildren_result (fun j c hc s => ?_) none _
        rw [Nat.zero_add, ← Location.ofNumbers_append_singleton]
        exact ih (by rw [List.length_append, List.length_singleton]; omega) (hg.child hc)
          (habove.child hg hc _ _) s
      cases hfault : registry.firstFault? maxDepth is (Node.placesAll 0 g.node.children) with
      | some e =>
        rw [hfault] at hbelow
        rw [walk_of_failed hsupports hloop (runRules_lookup_quiet hquiet _ _ _ s)
          (Prod.ext hbelow rfl)]
        rfl
      | none =>
        rw [hfault] at hbelow
        rw [walk_of_left hsupports hloop (runRules_lookup_quiet hquiet _ _ _ s)
          (Prod.ext hbelow rfl) (runRules_lookup_quiet hquiet _ _ _ _), Node.withChildren_children]
        rfl
    · rw [walk, if_neg hsupports, if_neg hsupports]
      rfl

end Walks

/-! ### Exactly the malformed trees -/

/-- The walk of a tree comes to what the malformed places of the tree make of it. -/
structure Registry.Judges (registry : Registry) (maxDepth : Nat) (tree : Node)
    (result : Except Error (Option Node)) : Prop where
  /-- It fails iff some place is malformed. -/
  fails_iff : (∃ e, result = .error e) ↔
    ∃ is n, tree.follow? is = some n ∧ registry.Malformed maxDepth is n
  /-- The error is that of the first malformed place in document order. The location of that place
      leads to the node at its numbers modulo `2 ^ 32`, so to its own node if they fit a word. -/
  first : ∀ e, result = .error e → ∃ is n, tree.follow? is = some n ∧
    registry.fault? maxDepth is n = some e ∧
    (∀ js m, tree.follow? js = some m → registry.Malformed maxDepth js m → is ≤ js) ∧
    tree.get? (Location.ofNumbers is) = tree.follow? (is.map (· % 2 ^ 32)) ∧
    ((∀ i ∈ is, i < 2 ^ 32) → tree.get? (Location.ofNumbers is) = some n)
  /-- No node is taken for its own ancestor. -/
  loops : ∀ l, result ≠ .error (.malformedTree l .ownAncestor)
  /-- A walk that does not fail gives the tree. -/
  passes : ∀ n, result = .ok n → n = some tree

/-- The first fault of a tree in walking order is what the verdict about it asks for. -/
theorem Registry.judges_unlessError (registry : Registry) (maxDepth : Nat) (tree : Node) :
    registry.Judges maxDepth tree
      (unlessError (some tree) (registry.firstFault? maxDepth [] tree.places)) := by
  cases hfirst : registry.firstFault? maxDepth [] tree.places with
  | none =>
    have hnone := firstFault?_eq_none_iff.mp hfirst
    refine ⟨⟨?_, ?_⟩, ?_, ?_, ?_⟩
    · rintro ⟨e, he⟩
      cases he
    · rintro ⟨is, n, hn, hmalformed⟩
      exact absurd hmalformed (hnone is n hn)
    · intro e he
      cases he
    · intro l he
      cases he
    · intro n hn
      exact (Except.ok.inj hn).symm
  | some e =>
    obtain ⟨is, n, hn, hfault, hleast⟩ := exists_of_firstFault?_eq_some hfirst
    -- A place with a fault is malformed, and no earlier place is.
    have hmalformed : registry.Malformed maxDepth is n := by
      by_contra hsound
      rw [fault?_eq_none_iff.mpr hsound] at hfault
      cases hfault
    refine ⟨⟨fun _ => ⟨is, n, hn, hmalformed⟩, fun _ => ⟨e, rfl⟩⟩, ?_, ?_, ?_⟩
    · intro e' he'
      rw [← Except.error.inj he']
      exact ⟨is, n, hn, hfault, hleast, tree.get?_ofNumbers_mod is,
        fun hnumbers => (tree.get?_ofNumbers_of_lt hnumbers).trans hn⟩
    · intro l he
      rw [Except.error.inj he] at hfault
      exact registry.fault?_ne_ownAncestor maxDepth is n l hfault
    · intro n hn
      cases hn

/-- A walk from the root is judged by the places of the node that it begins with. -/
theorem Registry.judges_walk {registry : Registry} (hquiet : registry.QueuesNothing)
    (maxDepth : Nat) {g : Graft} (hg : g.IsFinite) (s : WalkState) :
    registry.Judges maxDepth g.node
      (walk registry maxDepth (maxDepth + 1) g Location.root [] s).1 := by
  have hresult : (walk registry maxDepth (maxDepth + 1) g (Location.ofNumbers []) [] s).1
      = unlessError (some g.node) (registry.firstFault? maxDepth [] g.node.places) :=
    walk_quiet_result hquiet (Nat.zero_add _) hg
      (fun _ _ _ _ st hst => absurd hst List.not_mem_nil) s
  rw [show Location.root = Location.ofNumbers [] from rfl, hresult]
  exact registry.judges_unlessError maxDepth g.node

/-- **Exactly the malformed trees are rejected.** If no callback queues an edit, then for all trees,
    schemas, depth limits and settings the walk fails iff some node has an unsupported kind or lies
    deeper than the limit. The error is that of the first such node in document order: its kind,
    also if it is too deep as well, or else the depth with the location of the node. That location
    keeps the numbers of children modulo `2 ^ 32`, and leads to the node if they fit a word. No node
    is taken for its own ancestor. The same holds for the walk of a graft in which a node may stand
    in several places, as long as none stands below itself. -/
theorem traverse_rejects (registry : Registry) (hquiet : registry.QueuesNothing) (maxDepth : Nat) :
    (∀ (tree : Node) (c : Collector),
      registry.Judges maxDepth tree (traverse registry maxDepth tree c).1) ∧
      ∀ (g : Graft) (s : WalkState), g.IsFinite →
        registry.Judges maxDepth g.node
          (walk registry maxDepth (maxDepth + 1) g Location.root [] s).1 := by
  refine ⟨fun tree c => ?_, fun g s hg => ?_⟩
  · exact Registry.judges_walk hquiet maxDepth (Graft.isFinite_ofNode tree) (.start c)
  · exact Registry.judges_walk hquiet maxDepth hg s

/-- A registry whose schema knows no comments. -/
def commentFree : Registry where
  rules := [reporting ⟨"A"⟩]
  supports k := k != .comment
  names_nodup := by decide

/-- A document with the same written paragraph twice. -/
def twinParagraphs : Graft :=
  .build .document Span.zero
    [ .ofWritten ⟨"twins", []⟩ (.ofPayload (.element "p" [] false) []),
      .ofWritten ⟨"twins", []⟩ (.ofPayload (.element "p" [] false) []) ]

/-- The graft has no loops, and only its two paragraphs are written out. -/
theorem follow?_twinParagraphs {is : List Nat} {h : Graft}
    (hh : twinParagraphs.follow? is = some h) :
    h.loops = [] ∧ (is = [] ∧ h.mark? = none ∨ is.length = 1) := by
  rcases is with - | ⟨i, is⟩
  · obtain rfl : twinParagraphs = h := Option.some.inj hh
    exact ⟨rfl, .inl ⟨rfl, by decide⟩⟩
  · obtain ⟨c, hc, hh⟩ := Graft.cursor.follow?_cons_eq_some.mp hh
    have hleaf : c.children = [] := by
      have hmem : c ∈ twinParagraphs.node.children := List.mem_of_getElem? hc
      simp only [twinParagraphs, Graft.build, Graft.ofWritten, List.map_cons, List.map_nil,
        List.mem_cons, List.not_mem_nil, or_false, or_self] at hmem
      rw [hmem]
      rfl
    rcases is with - | ⟨j, is⟩
    · obtain rfl : twinParagraphs.child i c = h := Option.some.inj hh
      exact ⟨rfl, .inr rfl⟩
    · obtain ⟨d, hd, -⟩ := Graft.cursor.follow?_cons_eq_some.mp hh
      rw [show (Graft.cursor.node (Graft.cursor.child twinParagraphs i c)).children = []
        from hleaf] at hd
      cases hd

/-- The paragraphs are the same node, but neither lies below the other. -/
theorem isFinite_twinParagraphs : twinParagraphs.IsFinite where
  loops is h hh := by
    rw [(follow?_twinParagraphs hh).1]
    exact List.not_mem_nil
  written is js h h' hjs hh hh' hmark := by
    -- Only the document encloses anything, and it is not written out.
    rcases (follow?_twinParagraphs hh).2 with ⟨rfl, hnone⟩ | hone
    · rw [hnone]
      rintro heq
      rw [← heq] at hmark
      cases hmark
    · have hpos := List.length_pos_iff.mpr hjs
      have hlength : (is ++ js).length = is.length + js.length := List.length_append
      rcases (follow?_twinParagraphs hh').2 with ⟨hnil, -⟩ | hone'
      · rw [hnil, List.length_nil] at hlength
        omega
      · omega

/-- The one rule of the registry only reports. -/
theorem queuesNothing_commentFree : commentFree.QueuesNothing := by
  intro r hr
  exact queuesNothing_reportRegistry r (List.mem_cons.mpr (.inl (List.mem_singleton.mp hr)))

/-- In the sample comments are not supported and a text after them is too deep, and twins that stand
    beside each other are no loop. -/
theorem traverse_rejects_sample :
    commentFree.QueuesNothing ∧ twinParagraphs.IsFinite ∧
      (∃ e, (traverse commentFree 1 directedTree (Collector.new .describeOnly none)).1 = .error e ∧
        ∃ is n, directedTree.follow? is = some n ∧ commentFree.fault? 1 is n = some e ∧
          ∀ js m, directedTree.follow? js = some m → commentFree.Malformed 1 js m → is ≤ js) ∧
      ∀ l, (walk commentFree 1 2 twinParagraphs Location.root []
          (WalkState.start (Collector.new .describeOnly none))).1
        ≠ .error (.malformedTree l .ownAncestor) := by
  have hrejects := traverse_rejects commentFree queuesNothing_commentFree 1
  refine ⟨queuesNothing_commentFree, isFinite_twinParagraphs, ?_, ?_⟩
  · have hjudges := hrejects.1 directedTree (Collector.new .describeOnly none)
    obtain ⟨e, he⟩ := hjudges.fails_iff.mpr ⟨[2, 0], _, rfl, .inr (by decide)⟩
    obtain ⟨is, n, hn, hfault, hleast, -⟩ := hjudges.first e he
    exact ⟨e, he, is, n, hn, hfault, hleast⟩
  · exact (hrejects.2 twinParagraphs _ isFinite_twinParagraphs).loops

/-! ### More children than a word can count -/

/-- A document with `k` texts and one more node after them. -/
def Node.crowded (k : Nat) (last : Node) : Node :=
  .ofPayload .document (List.replicate k (.ofPayload (.text "a") []) ++ [last])

/-- All children but the last are texts. -/
theorem Node.getElem?_crowded_of_lt {k i : Nat} (hi : i < k) (last : Node) :
    (crowded k last).children[i]? = some (.ofPayload (.text "a") []) := by
  show (List.replicate k _ ++ [last])[i]? = _
  rw [List.getElem?_append_left (by rw [List.length_replicate]; exact hi), List.getElem?_replicate,
    if_pos hi]

/-- The last child comes after the `k` others. -/
theorem Node.getElem?_crowded_self (k : Nat) (last : Node) :
    (crowded k last).children[k]? = some last := by
  show (List.replicate k _ ++ [last])[k]? = _
  rw [List.getElem?_append_right (by rw [List.length_replicate]), List.length_replicate,
    Nat.sub_self]
  rfl

/-- A place below another one is below the last child, since the texts have no children. -/
theorem Node.follow?_crowded {k : Nat} {last m : Node} {i j : Nat} {is : List Nat}
    (h : (crowded k last).follow? (i :: j :: is) = some m) :
    i = k ∧ last.follow? (j :: is) = some m := by
  obtain ⟨c, hc, hm⟩ := follow?_cons_eq_some.mp h
  rcases Nat.lt_trichotomy i k with hi | rfl | hi
  · rw [getElem?_crowded_of_lt hi] at hc
    obtain rfl := Option.some.inj hc
    obtain ⟨d, hd, -⟩ := follow?_cons_eq_some.mp hm
    cases hd
  · rw [getElem?_crowded_self] at hc
    obtain rfl := Option.some.inj hc
    exact ⟨rfl, hm⟩
  · have hlt : i < (crowded k last).children.length := (List.getElem?_eq_some_iff.mp hc).1
    have hlength : (crowded k last).children.length = k + 1 := by
      show (List.replicate k _ ++ [last]).length = k + 1
      rw [List.length_append, List.length_replicate, List.length_singleton]
    omega

/-- A paragraph with a text. -/
def textParagraph : Node :=
  .ofPayload (.element "p" [] false) [.ofPayload (.text "b") []]

/-- The text of the paragraph is the only node that lies deeper than one level. -/
theorem Node.eq_of_follow?_crowded {k : Nat} {is : List Nat} {m : Node}
    (h : (crowded k textParagraph).follow? is = some m) (hdeep : 1 < is.length) : is = [k, 0] := by
  rcases is with - | ⟨i, - | ⟨j, is⟩⟩
  · cases hdeep
  · exact absurd hdeep (lt_irrefl 1)
  · obtain ⟨rfl, hbelow⟩ := follow?_crowded h
    obtain ⟨c, hc, hbelow⟩ := follow?_cons_eq_some.mp hbelow
    rcases j with - | j
    · obtain rfl : Node.ofPayload (.text "b") [] = c := Option.some.inj hc
      rcases is with - | ⟨j, is⟩
      · rfl
      · obtain ⟨d, hd, -⟩ := follow?_cons_eq_some.mp hbelow
        cases hd
    · cases hc

/-- With `2 ^ 32` texts before it, the paragraph is the child with number `2 ^ 32`, and its text
    lies too deep. The error names a location where the document has no node. -/
theorem traverse_rejects_wraps :
    reportRegistry.QueuesNothing ∧
      (Node.crowded (2 ^ 32) textParagraph).follow? [2 ^ 32, 0]
        = some (.ofPayload (.text "b") []) ∧
      (traverse reportRegistry 1 (Node.crowded (2 ^ 32) textParagraph)
          (Collector.new .describeOnly none)).1
        = .error (.malformedTree ⟨[0, 0]⟩ (.tooDeep 1)) ∧
      (Node.crowded (2 ^ 32) textParagraph).get? ⟨[0, 0]⟩ = none := by
  have hplace : (Node.crowded (2 ^ 32) textParagraph).follow? [2 ^ 32, 0]
      = some (.ofPayload (.text "b") []) :=
    Node.follow?_cons_eq_some.mpr ⟨_, Node.getElem?_crowded_self _ _, rfl⟩
  refine ⟨queuesNothing_reportRegistry, hplace, ?_, ?_⟩
  · have hjudges : reportRegistry.Judges 1 (Node.crowded (2 ^ 32) textParagraph)
        (traverse reportRegistry 1 (Node.crowded (2 ^ 32) textParagraph)
          (Collector.new .describeOnly none)).1 :=
      Registry.judges_walk queuesNothing_reportRegistry 1 (Graft.isFinite_ofNode _) _
    obtain ⟨e, he⟩ := hjudges.fails_iff.mpr ⟨[2 ^ 32, 0], _, hplace, .inr (by decide)⟩
    obtain ⟨is, m, hm, hfault, -⟩ := hjudges.first e he
    rw [he]
    -- The schema knows all kinds, so the fault is the depth, and only one place is deep enough.
    have hsupports : reportRegistry.supports m.kind = true := rfl
    rw [Registry.fault?, if_pos hsupports] at hfault
    split at hfault
    · rename_i hdeep
      rw [Node.eq_of_follow?_crowded hm hdeep] at hfault
      exact congrArg Except.error (Option.some.inj hfault).symm
    · cases hfault
  · have hwords : ∀ i ∈ [0, 0], i < 2 ^ 32 := by simp
    rw [show (⟨[0, 0]⟩ : Location) = Location.ofNumbers [0, 0] from rfl,
      Node.get?_ofNumbers_of_lt _ hwords, Option.eq_none_iff_forall_ne_some]
    intro m hm
    exact absurd (Node.follow?_crowded hm).1 (by simp)

end TreeLint

import Mathlib
import TreeLint.Proofs.Reaction
import TreeLint.Proofs.Rejection

namespace TreeLint

/-!
# The order of a walk

Where no callback queues an edit, the callbacks are invoked along the depth-first tour of the tree.

* `Node.tour` is the tour: at each node the rules on entry, then the tours of the children, then the
  rules on exit. `Node.mem_tour` says which stops it has, `Node.nodup_tour` that it has each of them
  once.
* `Path.follow?` is the path that a callback gets at a place: `Cursor.node_of_follow?`,
  `Path.location_of_follow?` and `Path.ancestors_of_follow?` say what it shows.
* `Toured` says that a part of a walk made some stops. `toured_consult` is about the rules of one
  node, `toured_walkChildren` about the children of a node, and `toured_walk` is the induction.
* `traverse_tour`: a pass makes the tour of the tree. The locations of the paths are exact as far as
  the numbers of children fit a word; `traverse_tour_wraps` is a document in which they do not.
-/

/-! ### Tours -/

/-- A rule is asked at a place. -/
structure Stop where
  rule : String
  phase : Phase
  numbers : List Nat
  deriving DecidableEq

/-- The stop as seen from the parent, of which the tree is the child with number `i`. -/
def Stop.inChild (i : Nat) (st : Stop) : Stop := { st with numbers := i :: st.numbers }

/-- Stops in a child are told apart by where they are in the child. -/
theorem Stop.inChild_injective (i : Nat) : Function.Injective (Stop.inChild i) := by
  rintro ⟨rule, phase, is⟩ ⟨rule', phase', is'⟩ h
  simpa [inChild] using h

namespace Node

section Tours

variable (asked : Phase → Kind → List String)

/-- The stops at the root of a tree, given the rules that are asked about each kind. -/
def stopsHere (phase : Phase) (n : Node) : List Stop :=
  (asked phase n.kind).map fun rule => ⟨rule, phase, []⟩

mutual

/-- The depth-first tour of a tree, given the rules that are asked about each kind. -/
def tour : Node → List Stop
  | ⟨payload, span, cs⟩ =>
    stopsHere asked .enter ⟨payload, span, cs⟩ ++ tourAll 0 cs ++
      stopsHere asked .exit ⟨payload, span, cs⟩

/-- The tours of the children from number `i` on, one after the other. -/
def tourAll : Nat → List Node → List Stop
  | _, [] => []
  | i, c :: cs => (tour c).map (Stop.inChild i) ++ tourAll (i + 1) cs

end

/-- A node is asked about, then its children, then the node again. -/
theorem tour_eq (n : Node) :
    n.tour asked = n.stopsHere asked .enter ++ tourAll asked 0 n.children ++
      n.stopsHere asked .exit := by
  obtain ⟨payload, span, cs⟩ := n
  rw [tour]

variable {asked}

/-- The stops at the node itself are those of the rules that are asked about its kind. -/
theorem mem_stopsHere {phase : Phase} {n : Node} {st : Stop} :
    st ∈ n.stopsHere asked phase ↔
      st.numbers = [] ∧ st.phase = phase ∧ st.rule ∈ asked phase n.kind := by
  obtain ⟨rule, phase', is⟩ := st
  simp only [stopsHere, List.mem_map, Stop.mk.injEq]
  constructor
  · rintro ⟨rule', hrule, rfl, rfl, rfl⟩
    exact ⟨rfl, rfl, hrule⟩
  · rintro ⟨rfl, rfl, hrule⟩
    exact ⟨rule, hrule, rfl, rfl, rfl⟩

/-- A stop below the children is a stop of the tour of one of them. -/
theorem mem_tourAll {i : Nat} {cs : List Node} {st : Stop} :
    st ∈ tourAll asked i cs ↔
      ∃ (j : Nat) (c : Node) (st' : Stop), cs[j]? = some c ∧ st = st'.inChild (i + j) ∧
        st' ∈ c.tour asked := by
  induction cs generalizing i with
  | nil => simp [tourAll]
  | cons c cs ih =>
    rw [tourAll, List.mem_append, ih, List.mem_map]
    constructor
    · rintro (⟨st', hst', rfl⟩ | ⟨j, d, st', hd, rfl, hst'⟩)
      · exact ⟨0, c, st', rfl, rfl, hst'⟩
      · exact ⟨j + 1, d, st', hd, by congr 1; omega, hst'⟩
    · rintro ⟨j, d, st', hd, rfl, hst'⟩
      cases j with
      | zero =>
        obtain rfl : c = d := Option.some.inj hd
        exact .inl ⟨st', hst', rfl⟩
      | succ j => exact .inr ⟨j, d, st', hd, by congr 1; omega, hst'⟩

/-- **Where a tour stops**: at every place, for the rules that are asked about its node, and nowhere
    else. -/
theorem mem_tour {n : Node} {st : Stop} :
    st ∈ n.tour asked ↔
      ∃ m, n.follow? st.numbers = some m ∧ st.rule ∈ asked st.phase m.kind := by
  induction n generalizing st with
  | node payload span cs ih =>
    obtain ⟨rule, phase, is⟩ := st
    rw [tour_eq, List.mem_append, List.mem_append, mem_stopsHere, mem_stopsHere, mem_tourAll]
    cases is with
    | nil =>
      cases phase <;> simp [follow?_nil, Stop.inChild]
    | cons i is =>
      simp only [List.cons_ne_nil, false_and, false_or, or_false, follow?_cons_eq_some]
      constructor
      · rintro ⟨j, c, st', hc, hst, hmem⟩
        obtain ⟨m, hm, hrule⟩ := (ih c (List.mem_of_getElem? hc)).mp hmem
        simp only [Stop.inChild, Nat.zero_add, Stop.mk.injEq, List.cons.injEq] at hst
        obtain ⟨rfl, rfl, rfl, rfl⟩ := hst
        exact ⟨m, ⟨c, hc, hm⟩, hrule⟩
      · rintro ⟨m, ⟨c, hc, hm⟩, hrule⟩
        refine ⟨i, c, ⟨rule, phase, is⟩, hc, ?_, ?_⟩
        · rw [Nat.zero_add]
          rfl
        · exact (ih c (List.mem_of_getElem? hc)).mpr ⟨m, hm, hrule⟩

/-- **A tour makes no stop twice**, if no rule is named twice for a kind. -/
theorem nodup_tour (hasked : ∀ phase kind, (asked phase kind).Nodup) (n : Node) :
    (n.tour asked).Nodup := by
  have hhere : ∀ phase (m : Node), (m.stopsHere asked phase).Nodup := by
    intro phase m
    exact (hasked phase m.kind).map fun a b h => (Stop.mk.inj h).1
  induction n with
  | node payload span cs ih =>
    have hall : ∀ (i : Nat) (ds : List Node), (∀ d ∈ ds, d ∈ cs) → (tourAll asked i ds).Nodup := by
      intro i ds hds
      induction ds generalizing i with
      | nil => exact .nil
      | cons d ds ihds =>
        rw [tourAll, List.nodup_append']
        refine ⟨(ih d (hds d List.mem_cons_self)).map (Stop.inChild_injective i),
          ihds (i + 1) fun e he => hds e (List.mem_cons_of_mem d he), ?_⟩
        -- The stops of different children differ in the number of the child.
        intro st hst hst'
        obtain ⟨st₁, -, rfl⟩ := List.mem_map.mp hst
        obtain ⟨j, c, st₂, -, heq, -⟩ := mem_tourAll.mp hst'
        have hnumbers := congrArg Stop.numbers heq
        simp only [Stop.inChild, List.cons.injEq] at hnumbers
        omega
    have hbelow : ∀ st ∈ tourAll asked 0 cs, st.numbers ≠ [] := by
      intro st hst
      obtain ⟨j, c, st', -, rfl, -⟩ := mem_tourAll.mp hst
      exact List.cons_ne_nil _ _
    rw [tour_eq, List.nodup_append', List.nodup_append']
    refine ⟨⟨hhere .enter _, hall 0 cs fun d hd => hd, ?_⟩, hhere .exit _, ?_⟩
    · intro st hst hst'
      exact hbelow st hst' (mem_stopsHere.mp hst).1
    · intro st hst hst'
      obtain ⟨hroot, hexit, -⟩ := mem_stopsHere.mp hst'
      rcases List.mem_append.mp hst with hst | hst
      · rw [(mem_stopsHere.mp hst).2.1] at hexit
        cases hexit
      · exact hbelow st hst hroot

end Tours

end Node

/-- The rules that have a callback for the phase, look at the kind and are enabled, by name and in
    the order of their registration. -/
def Registry.asked (registry : Registry) (c : Collector) (phase : Phase) (kind : Kind) :
    List String :=
  (registry.rules.filter fun r =>
    r.accepts kind && ((r.callback? phase).isSome && c.isEnabled r.category)).map Rule.name

/-- Asked are the enabled rules that look at the kind and have a callback for the phase. -/
theorem Registry.mem_asked {registry : Registry} {c : Collector} {phase : Phase} {kind : Kind}
    {name : String} :
    name ∈ registry.asked c phase kind ↔ ∃ r ∈ registry.rules, r.name = name ∧
      r.accepts kind = true ∧ (r.callback? phase).isSome = true ∧
      c.isEnabled r.category = true := by
  unfold asked
  rw [List.mem_map]
  constructor
  · rintro ⟨r, hr, hname⟩
    simp only [List.mem_filter, Bool.and_eq_true] at hr
    exact ⟨r, hr.1, hname, hr.2⟩
  · rintro ⟨r, hr, hname, hasked⟩
    refine ⟨r, ?_, hname⟩
    simp only [List.mem_filter, Bool.and_eq_true]
    exact ⟨hr, hasked⟩

/-- No rule is asked twice: no two rules share a name. -/
theorem Registry.nodup_asked (registry : Registry) (c : Collector) (phase : Phase) (kind : Kind) :
    (registry.asked c phase kind).Nodup :=
  registry.names_nodup.sublist (List.filter_sublist.map Rule.name)

/-! ### Paths to places -/

namespace Path

/-- The path to the child with number `i`. -/
def child (p : Path) (i : Nat) (c : Node) : Path :=
  ⟨⟨Graft.ofNode c, c, p.location.child i⟩, p.here :: p.above⟩

/-- A path as a cursor. -/
def cursor : Cursor Path := ⟨node, child, fun _ _ _ => rfl⟩

/-- The path that the numbers of children lead to. -/
def follow? (p : Path) (is : List Nat) : Option Path := cursor.follow? p is

/-- The first number leads to a child. -/
theorem follow?_cons_eq_some {p q : Path} {i : Nat} {is : List Nat} :
    p.follow? (i :: is) = some q ↔
      ∃ c, p.node.children[i]? = some c ∧ (p.child i c).follow? is = some q :=
  cursor.follow?_cons_eq_some

/-- A path that is followed has the location that the numbers spell. -/
theorem location_of_follow? {p q : Path} {is js : List Nat} (h : p.follow? is = some q)
    (hp : p.location = Location.ofNumbers js) : q.location = Location.ofNumbers (js ++ is) := by
  induction is generalizing p js with
  | nil =>
    obtain rfl : p = q := Option.some.inj h
    rw [hp, List.append_nil]
  | cons i is ih =>
    obtain ⟨c, hc, h⟩ := follow?_cons_eq_some.mp h
    have hchild : (p.child i c).location = Location.ofNumbers (js ++ [i]) := by
      rw [Location.ofNumbers_append_singleton, ← hp]
      rfl
    rw [ih h hchild, List.append_assoc, List.singleton_append]

/-- Above a place on the path from `p` are the enclosing places, nearest first, and then what is
    above `p`. -/
theorem ancestors_of_follow? {p q : Path} {is js : List Nat} (h : p.follow? is = some q)
    (hp : p.location = Location.ofNumbers js) :
    q.ancestors.map (fun a => (a.location, some a.node))
      = (enclosingPlaces is).map (fun ks => (Location.ofNumbers (js ++ ks), p.node.follow? ks))
        ++ p.ancestors.map fun a => (a.location, some a.node) := by
  induction is generalizing p js with
  | nil =>
    obtain rfl : p = q := Option.some.inj h
    rfl
  | cons i is ih =>
    obtain ⟨c, hc, h⟩ := follow?_cons_eq_some.mp h
    have hchild : (p.child i c).location = Location.ofNumbers (js ++ [i]) := by
      rw [Location.ofNumbers_append_singleton, ← hp]
      rfl
    have hbelow : ∀ ks, (p.child i c).node.follow? ks = p.node.follow? (i :: ks) :=
      fun ks => (Node.cursor.follow?_cons hc ks).symm
    have habove : (p.child i c).ancestors = p :: p.ancestors := rfl
    -- The farthest of the enclosing places is `p` itself.
    have hhere : (Location.ofNumbers (js ++ []), p.node.follow? [])
        = (p.location, some p.node) := by
      rw [List.append_nil, hp]
      rfl
    rw [ih h hchild, habove, List.map_cons, enclosingPlaces_cons, List.map_append, List.map_map,
      List.append_assoc, List.map_singleton, hhere]
    simp only [hbelow, List.append_assoc, List.singleton_append, Function.comp_def]

end Path

/-! ### Stops of a walk -/

/-- From `a` to `b` a walk made the stops below `p`: it invoked the callbacks there in this order,
    and queued nothing. -/
structure Toured (p : Path) (stops : List Stop) (a b : WalkState) : Prop where
  edits : b.edits = a.edits
  enabled : b.collector.enabled = a.collector.enabled
  log : ∃ new : List Visit, b.log = a.log ++ new ∧
    new.map (fun v => (v.rule, v.phase, some v.path))
      = stops.map fun st => (st.rule, st.phase, p.follow? st.numbers)

namespace Toured

variable {p : Path} {stops stops' : List Stop} {a b c : WalkState}

theorem refl (p : Path) (s : WalkState) : Toured p [] s s :=
  ⟨rfl, rfl, [], (List.append_nil _).symm, rfl⟩

/-- Two tours of a node, one after the other. -/
theorem trans (h : Toured p stops a b) (h' : Toured p stops' b c) :
    Toured p (stops ++ stops') a c := by
  obtain ⟨hedits, henabled, new, hlog, hstops⟩ := h
  obtain ⟨hedits', henabled', new', hlog', hstops'⟩ := h'
  refine ⟨hedits'.trans hedits, henabled'.trans henabled, new ++ new', ?_, ?_⟩
  · rw [hlog', hlog, List.append_assoc]
  · rw [List.map_append, List.map_append, hstops, hstops']

/-- Stops below a child are stops below the parent. -/
theorem inChild {i : Nat} {d : Node} (hd : p.node.children[i]? = some d)
    (h : Toured (p.child i d) stops a b) : Toured p (stops.map (Stop.inChild i)) a b := by
  obtain ⟨hedits, henabled, new, hlog, hstops⟩ := h
  refine ⟨hedits, henabled, new, hlog, ?_⟩
  rw [hstops, List.map_map]
  refine List.map_congr_left fun st _ => ?_
  have hfollow : p.follow? (i :: st.numbers) = (p.child i d).follow? st.numbers :=
    Path.cursor.follow?_cons hd st.numbers
  rw [← hfollow]
  rfl

/-- A suppression that is lifted again changes nothing about the stops. -/
theorem leave {scope : Option Suppression} (h : Toured p stops (a.under scope) b) :
    Toured p stops a (b.leave scope) := by
  cases scope with
  | none => exact h
  | some d => exact ⟨h.edits, h.enabled, h.log⟩

end Toured

section Walks

variable {registry : Registry} (hquiet : registry.QueuesNothing) (c : Collector)

include hquiet

/-- The rules of a node are asked in the order of their registration. -/
theorem toured_consult (phase : Phase) {p : Path} {rules : List Rule}
    (hrules : ∀ r ∈ rules, r ∈ registry.rules ∧ r.accepts p.kind = true) {s : WalkState}
    (hs : s.collector.enabled = c.enabled) :
    Toured p ((rules.filter fun r => (r.callback? phase).isSome && c.isEnabled r.category).map
      fun r => ⟨r.name, phase, []⟩) s (s.consult phase rules p) := by
  induction rules generalizing s with
  | nil => exact .refl p s
  | cons r rules ih =>
    obtain ⟨hr, haccepts⟩ := hrules r List.mem_cons_self
    -- The first rule makes a stop if it has a callback and is enabled, and none otherwise.
    have hfirst : Toured p (([r].filter fun r => (r.callback? phase).isSome &&
        c.isEnabled r.category).map fun r => ⟨r.name, phase, []⟩) s (runRule r phase p s).2 := by
      have hedits := (runRule_quiet hquiet hr phase p s).2
      have henabled : s.collector.isEnabled r.category = c.isEnabled r.category := by
        unfold Collector.isEnabled
        rw [hs]
      cases hcallback : r.callback? phase with
      | none =>
        rw [runRule_of_none hcallback]
        simpa [hcallback] using Toured.refl p s
      | some callback =>
        rw [state_runRule hcallback, haccepts, henabled, Bool.true_and] at hedits ⊢
        cases hon : c.isEnabled r.category with
        | false => simpa [hcallback, hon] using Toured.refl p s
        | true =>
          rw [hon, if_pos rfl] at hedits
          simp only [List.filter_cons, hcallback, Option.isSome_some, hon, Bool.and_self, if_true]
          refine ⟨hedits, ?_, _, log_react_eq s r phase p _, rfl⟩
          rw [collector_react]
    have hrest := ih (fun r' hr' => hrules r' (List.mem_cons_of_mem r hr'))
      (hfirst.enabled.trans hs)
    have htwo := hfirst.trans hrest
    rw [← List.map_append, ← List.filter_append, List.singleton_append] at htwo
    exact htwo

/-- Consulting the rules for a node is the tour of its own stops. -/
theorem toured_lookup (phase : Phase) (p : Path) {s : WalkState}
    (hs : s.collector.enabled = c.enabled) :
    Toured p (p.node.stopsHere (registry.asked c) phase) s
      (s.consult phase (registry.lookup p.kind) p) := by
  have h : Toured p (((registry.lookup p.kind).filter fun r =>
      (r.callback? phase).isSome && c.isEnabled r.category).map fun r => ⟨r.name, phase, []⟩) s
      (s.consult phase (registry.lookup p.kind) p) :=
    toured_consult hquiet c phase (fun r hr => Registry.mem_lookup.mp hr) hs
  have hstops : ((registry.lookup p.kind).filter fun r =>
      (r.callback? phase).isSome && c.isEnabled r.category).map
        (fun r => (⟨r.name, phase, []⟩ : Stop)) = p.node.stopsHere (registry.asked c) phase := by
    unfold Node.stopsHere Registry.asked
    rw [Registry.lookup_eq_filter, List.filter_filter, List.map_map]
    exact congrArg (List.map _) (List.filter_congr fun r _ => Bool.and_comm _ _)
  rw [hstops] at h
  exact h

omit hquiet in
/-- The children are toured one after the other, if the walk of each child is its tour. -/
theorem toured_walkChildren {visit : Nat → Node → WalkState → Walked (Option Node)} {p : Path}
    {asked : Phase → Kind → List String} {i : Nat} {ds : List Node}
    (hvisit : ∀ j d, ds[j]? = some d → ∀ s : WalkState, s.collector.enabled = c.enabled →
      ∃ s', visit (i + j) d s = (.ok (some d), s') ∧
        Toured p ((d.tour asked).map (Stop.inChild (i + j))) s s')
    (pending : Option Suppression) {s : WalkState} (hs : s.collector.enabled = c.enabled) :
    ∃ s', walkChildren visit i pending ds s = (.ok ds, s') ∧
      Toured p (Node.tourAll asked i ds) s s' := by
  induction ds generalizing i pending s with
  | nil => exact ⟨s, rfl, .refl p s⟩
  | cons d ds ih =>
    -- A scope does not change what is enabled.
    have hunder : (s.under (scopeOf pending d)).collector.enabled = c.enabled := by
      rw [← hs]
      cases scopeOf pending d with
      | none => rfl
      | some suppression => rfl
    obtain ⟨s₁, hfirst, htoured⟩ := hvisit 0 d rfl _ hunder
    rw [Nat.add_zero] at hfirst htoured
    have hleft := htoured.leave
    obtain ⟨s₂, hrest, htoured'⟩ := ih (i := i + 1) (fun j e he => by
      have := hvisit (j + 1) e he
      rwa [show i + (j + 1) = i + 1 + j by omega] at this) (nextPending pending d)
      (hleft.enabled.trans hs)
    refine ⟨s₂, ?_, ?_⟩
    · rw [walkChildren_cons_of_ok ds hfirst, hrest]
      rfl
    · rw [Node.tourAll]
      exact hleft.trans htoured'

/-- **The walk is the tour.** If the limit leaves room for the levels of `n` and the schema supports
    its kinds, the walk of `n` makes the stops of its tour and gives `n` back. -/
theorem toured_walk (maxDepth : Nat) {budget : Nat} {n : Node} {l : Location} {above : List Step}
    (hheight : n.height < budget) (hsupports : ∀ m ∈ n.parts, registry.supports m.kind = true)
    {s : WalkState} (hs : s.collector.enabled = c.enabled) :
    ∃ s', walk registry maxDepth budget (Graft.ofNode n) l above s = (.ok (some n), s') ∧
      Toured ⟨⟨Graft.ofNode n, n, l⟩, above⟩ (n.tour (registry.asked c)) s s' := by
  induction budget generalizing n l above s with
  | zero => omega
  | succ budget ih =>
    have hroom : ∀ d ∈ n.children, d.height < budget := by
      obtain ⟨payload, span, cs⟩ := n
      intro d hd
      have hlt : d.height < Node.heightAll cs := Node.height_lt_heightAll hd
      rw [Node.height] at hheight
      omega
    have hkind : registry.supports (Graft.ofNode n).node.kind = true :=
      hsupports n (Node.mem_parts_self n)
    have henter := toured_lookup hquiet c .enter ⟨⟨Graft.ofNode n, n, l⟩, above⟩ hs
    have hbelow : ∃ s', walkBelow registry maxDepth budget n (Graft.ofNode n) l above
          (s.consult .enter (registry.lookup n.kind) ⟨⟨Graft.ofNode n, n, l⟩, above⟩)
          = (.ok n.children, s') ∧
        Toured ⟨⟨Graft.ofNode n, n, l⟩, above⟩ (Node.tourAll (registry.asked c) 0 n.children)
          (s.consult .enter (registry.lookup n.kind) ⟨⟨Graft.ofNode n, n, l⟩, above⟩) s' := by
      refine toured_walkChildren c (fun j d hd s hs => ?_) none (henter.enabled.trans hs)
      have hmem := List.mem_of_getElem? hd
      obtain ⟨s', hwalk, htoured⟩ : ∃ s', walk registry maxDepth budget (Graft.ofNode d)
            (l.child j) (⟨Graft.ofNode n, n, l⟩ :: above) s = (.ok (some d), s') ∧
          Toured (Path.child ⟨⟨Graft.ofNode n, n, l⟩, above⟩ j d) (d.tour (registry.asked c))
            s s' :=
        ih (hroom d hmem) (fun m hm => hsupports m (Node.mem_parts_of_child hmem hm)) hs
      rw [Nat.zero_add]
      exact ⟨s', hwalk, htoured.inChild hd⟩
    obtain ⟨s', hbelow, hchildren⟩ := hbelow
    have hexit := toured_lookup hquiet c .exit ⟨⟨Graft.ofNode n, n, l⟩, above⟩
      (hchildren.enabled.trans (henter.enabled.trans hs))
    -- The children come back as they were, so the rules see the same node on exit as on entry.
    have hwalk := walk_of_left hkind rfl (runRules_lookup_quiet hquiet _ _ _ s) hbelow
      (runRules_lookup_quiet hquiet _ _ _ s')
    rw [show (Graft.ofNode n).node.withChildren n.children = n from n.withChildren_children]
      at hwalk
    refine ⟨_, hwalk, ?_⟩
    rw [Node.tour_eq]
    exact (henter.trans hchildren).trans hexit

end Walks

/-! ### A pass is a tour -/

/-- The invocation is the one of a stop: the rule is asked in the phase about the node at the place,
    and the path shows the nodes of the tree at the place and at those that enclose it. -/
structure Visit.IsAt (tree : Node) (v : Visit) (st : Stop) : Prop where
  rule : v.rule = st.rule
  phase : v.phase = st.phase
  location : v.path.location = Location.ofNumbers st.numbers
  node : tree.follow? st.numbers = some v.path.node
  ancestors : v.path.ancestors.map (fun a => (a.location, some a.node))
    = (enclosingPlaces st.numbers).map fun is => (Location.ofNumbers is, tree.follow? is)

/-- The path of an invocation shows what the tree holds at its location and at those above it. -/
structure Visit.Shows (tree : Node) (v : Visit) : Prop where
  node : tree.get? v.path.location = some v.path.node
  ancestors : v.path.ancestors.map (fun a => (a.location, some a.node))
    = v.path.location.ancestors.map fun l => (l, tree.get? l)

/-- Where the numbers of a stop fit a word, the path of its invocation shows the tree. -/
theorem Visit.IsAt.shows {tree : Node} {v : Visit} {st : Stop} (h : v.IsAt tree st)
    (hnumbers : ∀ i ∈ st.numbers, i < 2 ^ 32) : v.Shows tree := by
  refine ⟨?_, ?_⟩
  · rw [h.location, tree.get?_ofNumbers_of_lt hnumbers]
    exact h.node
  · rw [h.ancestors, h.location, Location.ancestors_ofNumbers, List.map_map]
    refine List.map_congr_left fun is his => ?_
    -- The numbers of an enclosing place are some of those of the stop.
    obtain ⟨k, -, rfl⟩ := List.mem_map.mp his
    have hwords : ∀ i ∈ st.numbers.take k, i < 2 ^ 32 :=
      fun i hi => hnumbers i (List.mem_of_mem_take hi)
    rw [Function.comp, tree.get?_ofNumbers_of_lt hwords]

/-- A tour of the whole tree logs one invocation at each stop. -/
theorem Toured.forall₂_isAt {tree : Node} {stops : List Stop} {a b : WalkState}
    (h : Toured (Path.ofNode tree Location.root) stops a b) (ha : a.log = []) :
    List.Forall₂ (Visit.IsAt tree) b.log stops := by
  obtain ⟨-, -, new, hlog, hstops⟩ := h
  rw [hlog, ha, List.nil_append]
  have hroot : (Path.ofNode tree Location.root).location = Location.ofNumbers [] := rfl
  rw [← List.forall₂_eq_eq_eq, List.forall₂_map_left_iff, List.forall₂_map_right_iff] at hstops
  refine hstops.imp fun v st hv => ?_
  obtain ⟨hrule, hphase, hpath⟩ : v.rule = st.rule ∧ v.phase = st.phase ∧
      some v.path = (Path.ofNode tree Location.root).follow? st.numbers := by
    simpa only [Prod.mk.injEq] using hv
  refine ⟨hrule, hphase, ?_, Path.cursor.node_of_follow? hpath.symm, ?_⟩
  · exact Path.location_of_follow? hpath.symm hroot
  · exact (Path.ancestors_of_follow? hpath.symm hroot).trans (List.append_nil _)

/-- A pass over a whole tree makes the stops of its tour. -/
theorem toured_traverse {registry : Registry} (hquiet : registry.QueuesNothing) (c : Collector)
    {maxDepth : Nat} {tree : Node} (hheight : tree.height ≤ maxDepth)
    (hsupports : ∀ m ∈ tree.parts, registry.supports m.kind = true) :
    ∃ s, traverse registry maxDepth tree c = (.ok (some tree), s) ∧
      Toured (Path.ofNode tree Location.root) (tree.tour (registry.asked c)) (WalkState.start c)
        s :=
  toured_walk hquiet c maxDepth (Nat.lt_succ_of_le hheight) hsupports rfl

/-- **A pass is the depth-first tour of the tree.** If no callback queues an edit, the limit leaves
    room for the tree and the schema supports its kinds, then for all settings the pass gives the
    tree, queues nothing and invokes callbacks exactly along the tour, each where its stop says. The
    tour makes no stop twice, and it stops at every place of the tree for the rules that are
    registered, look at the kind, have a callback for the phase and are enabled. The location of a
    path leads to the node at the numbers of its stop modulo `2 ^ 32`. So if these numbers fit a
    word, the path shows what the tree holds at its location, and above it what the tree holds at
    the locations above it, nearest first. -/
theorem traverse_tour (registry : Registry) (hquiet : registry.QueuesNothing) (maxDepth : Nat)
    (tree : Node) (hheight : tree.height ≤ maxDepth)
    (hsupports : ∀ m ∈ tree.parts, registry.supports m.kind = true) (c : Collector) :
    ∃ s, traverse registry maxDepth tree c = (.ok (some tree), s) ∧
      s.edits = EditQueue.empty ∧
      List.Forall₂ (fun v st => v.IsAt tree st ∧
          tree.get? v.path.location = tree.follow? (st.numbers.map (· % 2 ^ 32)) ∧
          ((∀ i ∈ st.numbers, i < 2 ^ 32) → v.Shows tree))
        s.visits.toList (tree.tour (registry.asked c)) ∧
      (tree.tour (registry.asked c)).Nodup ∧
      ∀ st, st ∈ tree.tour (registry.asked c) ↔
        ∃ n, tree.follow? st.numbers = some n ∧ ∃ r ∈ registry.rules, r.name = st.rule ∧
          r.accepts n.kind = true ∧ (r.callback? st.phase).isSome = true ∧
          c.isEnabled r.category = true := by
  obtain ⟨s, hwalk, htoured⟩ := toured_traverse hquiet c hheight hsupports
  refine ⟨s, hwalk, htoured.edits, ?_, Node.nodup_tour (registry.nodup_asked c) tree, ?_⟩
  · refine (htoured.forall₂_isAt rfl).imp fun v st hv => ⟨hv, ?_, hv.shows⟩
    rw [hv.location]
    exact tree.get?_ofNumbers_mod st.numbers
  · intro st
    rw [Node.mem_tour]
    simp only [Registry.mem_asked]

/-- A rule that looks at all elements and texts on entry and on exit. -/
def noticing : Rule where
  name := "noticing"
  category := ⟨"noticing"⟩
  accepts k := k = .element || k = .text
  enter := some fun _ _ => .nothing
  exit := some fun p _ => .report p ⟨"noticing"⟩ ⟨"left"⟩

/-- Texts are reported on entry, and elements and texts are noticed. -/
def noticeRegistry : Registry where
  rules := [reporting ⟨"A"⟩, noticing]
  supports _ := true
  names_nodup := by decide

/-- The tour of a document with two comments and a paragraph. -/
example : directedTree.tour (noticeRegistry.asked (Collector.new .describeOnly none))
    = [⟨"noticing", .enter, [2]⟩, ⟨"A", .enter, [2, 0]⟩, ⟨"noticing", .enter, [2, 0]⟩,
        ⟨"noticing", .exit, [2, 0]⟩, ⟨"noticing", .exit, [2]⟩] := by
  decide +kernel

/-- Rules that only report queue nothing. -/
theorem queuesNothing_noticeRegistry : noticeRegistry.QueuesNothing := by
  intro r hr phase callback hcallback p c
  simp only [noticeRegistry, List.mem_cons, List.not_mem_nil, or_false] at hr
  rcases hr with rfl | rfl
  · cases phase <;> cases hcallback
    rfl
  · cases phase <;> cases hcallback
    · rfl
    · rfl

/-- In the sample the paragraph is left after its text. -/
theorem traverse_tour_sample :
    noticeRegistry.QueuesNothing ∧ directedTree.height ≤ 2 ∧
      (∀ m ∈ directedTree.parts, noticeRegistry.supports m.kind = true) ∧
      directedTree.Addressable ∧
      ∃ s, traverse noticeRegistry 2 directedTree (Collector.new .describeOnly none)
          = (.ok (some directedTree), s) ∧
        s.visits.toList.map (fun v => v.path.location)
          = [⟨[2]⟩, ⟨[2, 0]⟩, ⟨[2, 0]⟩, ⟨[2, 0]⟩, ⟨[2]⟩] ∧
        ∀ v ∈ s.visits.toList, v.Shows directedTree := by
  have haddressable : directedTree.Addressable := by
    unfold Node.Addressable
    decide
  have hsupports : ∀ m ∈ directedTree.parts, noticeRegistry.supports m.kind = true :=
    fun _ _ => rfl
  obtain ⟨s, hwalk, -, hvisits, -⟩ := traverse_tour noticeRegistry queuesNothing_noticeRegistry 2
    directedTree (by decide) hsupports (Collector.new .describeOnly none)
  refine ⟨queuesNothing_noticeRegistry, by decide, hsupports, haddressable, s, hwalk, ?_, ?_⟩
  · have hlocations : s.visits.toList.map (fun v => v.path.location)
        = (directedTree.tour (noticeRegistry.asked (Collector.new .describeOnly none))).map
            fun st => Location.ofNumbers st.numbers := by
      rw [← List.forall₂_eq_eq_eq, List.forall₂_map_left_iff, List.forall₂_map_right_iff]
      exact hvisits.imp fun v st h => h.1.location
    rw [hlocations]
    decide +kernel
  · exact ((List.forall₂_and_left _ _).mp
      (hvisits.imp fun v st h => ⟨h.2.2 (haddressable.number_lt h.1.node), h.1⟩)).1

/-- With `2 ^ 32` texts before it, a text is the child with number `2 ^ 32`. It is visited under the
    location of the first child, where the document holds another text. -/
theorem traverse_tour_wraps :
    noticeRegistry.QueuesNothing ∧
      (Node.crowded (2 ^ 32) (.ofPayload (.text "b") [])).height ≤ 1 ∧
      (∀ m ∈ (Node.crowded (2 ^ 32) (.ofPayload (.text "b") [])).parts,
        noticeRegistry.supports m.kind = true) ∧
      ∃ s, traverse noticeRegistry 1 (Node.crowded (2 ^ 32) (.ofPayload (.text "b") []))
            (Collector.new .describeOnly none)
          = (.ok (some (Node.crowded (2 ^ 32) (.ofPayload (.text "b") []))), s) ∧
        ∃ v ∈ s.visits.toList, v.path.node = .ofPayload (.text "b") [] ∧
          v.path.location = ⟨[0]⟩ ∧
          (Node.crowded (2 ^ 32) (.ofPayload (.text "b") [])).get? ⟨[0]⟩
            = some (.ofPayload (.text "a") []) := by
  have hheight : (Node.crowded (2 ^ 32) (.ofPayload (.text "b") [])).height ≤ 1 := by
    refine Node.heightAll_le fun c hc => ?_
    rcases List.mem_append.mp hc with hc | hc
    · rw [List.eq_of_mem_replicate hc]
      decide
    · rw [List.mem_singleton.mp hc]
      decide
  have hplace : (Node.crowded (2 ^ 32) (.ofPayload (.text "b") [])).follow? [2 ^ 32]
      = some (.ofPayload (.text "b") []) :=
    Node.follow?_cons_eq_some.mpr ⟨_, Node.getElem?_crowded_self _ _, rfl⟩
  obtain ⟨s, hwalk, htoured⟩ := toured_traverse queuesNothing_noticeRegistry
    (Collector.new .describeOnly none) hheight fun _ _ => rfl
  refine ⟨queuesNothing_noticeRegistry, hheight, fun _ _ => rfl, s, hwalk, ?_⟩
  have hvisits := htoured.forall₂_isAt rfl
  -- The tour stops at the last text, and the visit there is the one in question.
  have hstop : (⟨"noticing", .enter, [2 ^ 32]⟩ : Stop)
      ∈ (Node.crowded (2 ^ 32) (.ofPayload (.text "b") [])).tour
          (noticeRegistry.asked (Collector.new .describeOnly none)) :=
    Node.mem_tour.mpr ⟨_, hplace, by decide⟩
  obtain ⟨i, hi, hget⟩ := List.getElem_of_mem hstop
  have hv := hvisits.get (hvisits.length_eq ▸ hi) hi
  rw [List.get_eq_getElem, List.get_eq_getElem, hget] at hv
  refine ⟨_, List.getElem_mem _, ?_, hv.location, ?_⟩
  · exact Option.some.inj (hv.node.symm.trans hplace)
  · have hwords : ∀ i ∈ [0], i < 2 ^ 32 := by simp
    rw [show (⟨[0]⟩ : Location) = Location.ofNumbers [0] from rfl,
      Node.get?_ofNumbers_of_lt _ hwords]
    exact Node.follow?_cons_eq_some.mpr ⟨_, Node.getElem?_crowded_of_lt (by norm_num) _, rfl⟩

end TreeLint

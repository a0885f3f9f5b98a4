import Mathlib
import TreeLint.Proofs.Node
import TreeLint.Rule.Builtin

namespace TreeLint.Builtin

/-!
# The normal form of the built-in rules

What the rules of the library make of a tree, said without a walk, edits or passes.

* `normalize` is the normal form: empty comments go, an interface body keeps the first property of
  each name, constraints that every type meets go, and every element that is left without children
  becomes self-closing.
* `onePass` is what one pass makes of the tree. It differs in one respect: it looks for
  children before the empty comments are gone.
* `onePass_onePass` and `onePass_normalize`: two passes give the normal form and a further pass
  leaves it alone. `onePass_eq_of_beq`: a pass that makes no structural difference makes none.
-/

/-! ### Properties of one name -/

/-- The first member is no property, or the second one is no property of its name. -/
def NamedApart (m x : Node) : Prop := m.propertyName? = none ∨ x.propertyName? ≠ m.propertyName?

instance (m x : Node) : Decidable (NamedApart m x) :=
  inferInstanceAs (Decidable (_ ∨ _))

/-- The members without the properties whose name an earlier property has. -/
def firstOfEachName : List Node → List Node
  | [] => []
  | m :: ms => m :: (firstOfEachName ms).filter fun x => NamedApart m x

/-- Members are left out and never reordered. -/
theorem firstOfEachName_sublist (ms : List Node) : (firstOfEachName ms).Sublist ms := by
  induction ms with
  | nil => exact List.Sublist.refl _
  | cons m ms ih => exact (List.filter_sublist.trans ih).cons_cons m

/-- No two properties that are left share a name. -/
theorem firstOfEachName_pairwise (ms : List Node) : (firstOfEachName ms).Pairwise NamedApart := by
  induction ms with
  | nil => exact List.Pairwise.nil
  | cons m ms ih =>
    refine List.pairwise_cons.mpr ⟨fun x hx => ?_, ih.filter _⟩
    exact of_decide_eq_true (List.mem_filter.mp hx).2

/-- Where no two properties share a name nothing is left out. -/
theorem firstOfEachName_of_pairwise {ms : List Node} (h : ms.Pairwise NamedApart) :
    firstOfEachName ms = ms := by
  induction ms with
  | nil => rfl
  | cons m ms ih =>
    obtain ⟨hm, hms⟩ := List.pairwise_cons.mp h
    rw [firstOfEachName, ih hms, List.filter_eq_self.mpr fun x hx => decide_eq_true (hm x hx)]

/-- To keep the first of each name twice is to do it once. -/
theorem firstOfEachName_idem (ms : List Node) :
    firstOfEachName (firstOfEachName ms) = firstOfEachName ms :=
  firstOfEachName_of_pairwise (firstOfEachName_pairwise ms)

/-- What keeps the names of properties does not matter to the choice of members. -/
theorem firstOfEachName_map {f : Node → Node} (hf : ∀ n, (f n).propertyName? = n.propertyName?)
    (ms : List Node) : firstOfEachName (ms.map f) = (firstOfEachName ms).map f := by
  induction ms with
  | nil => rfl
  | cons m ms ih =>
    rw [List.map_cons, firstOfEachName, firstOfEachName, List.map_cons, ih, List.filter_map]
    refine congrArg (fun l => f m :: l.map f) (List.filter_congr fun x _ => ?_)
    exact decide_eq_decide.mpr (by simp only [NamedApart, hf])

/-- The members that the rule keeps, when it has seen some names already. -/
theorem distinctMembers_eq_filter (seen : List String) (ms : List Node) :
    distinctMembers seen ms
      = (firstOfEachName ms).filter fun x =>
          x.propertyName?.all fun name => !seen.contains name := by
  -- The names that were seen are kept as a list by the one and as a filter by the other.
  induction ms generalizing seen with
  | nil => rfl
  | cons m ms ih =>
    rw [distinctMembers, firstOfEachName]
    cases hm : m.propertyName? with
    | none => simp [ih, hm, NamedApart]
    | some name =>
      simp only [List.filter_cons, List.filter_filter, NamedApart, hm, Option.all_some]
      by_cases hseen : seen.contains name = true
      · simp only [hseen, if_true, Bool.not_true, Bool.false_eq_true, if_false, ih]
        refine List.filter_congr fun x _ => ?_
        cases hx : x.propertyName? with
        | none => simp
        | some other =>
          by_cases ho : other = name
          · subst ho
            simpa using hseen
          · simp [ho]
      · simp only [hseen, Bool.false_eq_true, if_false, Bool.not_false, if_true, ih]
        refine congrArg (m :: ·) (List.filter_congr fun x _ => ?_)
        cases hx : x.propertyName? with
        | none => simp
        | some other => simp [Bool.and_comm]

/-- **The rule keeps the first property of each name.** -/
theorem distinctMembers_eq (ms : List Node) : distinctMembers [] ms = firstOfEachName ms := by
  rw [distinctMembers_eq_filter]
  refine List.filter_eq_self.mpr fun x _ => ?_
  cases x.propertyName? <;> simp

/-! ### The two rewritings -/

/-- The members that a node of the payload keeps: an interface body keeps the first property of each
    name, any other node all its children. -/
def selectMembers : Payload → List Node → List Node
  | .interfaceBody, ms => firstOfEachName ms
  | _, ms => ms

/-- The payload as the rules leave it. An element becomes self-closing when it counts as childless,
    and a constraint that every type meets goes. -/
def tidyPayload (childless : Bool) : Payload → Payload
  | .element tag attributes selfClosing => .element tag attributes (selfClosing || childless)
  | .typeParameter name (some constraint) default =>
    .typeParameter name (if isTopType constraint then none else some constraint) default
  | p => p

mutual

/-- The normal form of a tree. -/
def normalize : Node → Node
  | ⟨payload, span, cs⟩ =>
    let left := selectMembers payload (normalizeAll cs)
    ⟨tidyPayload left.isEmpty payload, span, left⟩

/-- The normal forms of several trees, without the empty comments among them. -/
def normalizeAll : List Node → List Node
  | [] => []
  | c :: cs => if isEmptyComment c then normalizeAll cs else normalize c :: normalizeAll cs

end

mutual

/-- The tree after one pass. -/
def onePass : Node → Node
  | ⟨payload, span, cs⟩ =>
    ⟨tidyPayload cs.isEmpty payload, span, selectMembers payload (onePassAll cs)⟩

/-- Several trees after one pass, without the empty comments among them. -/
def onePassAll : List Node → List Node
  | [] => []
  | c :: cs => if isEmptyComment c then onePassAll cs else onePass c :: onePassAll cs

end

/-- The children that are no empty comments. -/
def withoutEmptyComments (cs : List Node) : List Node := cs.filter fun c => !isEmptyComment c

/-- Empty comments are left out one by one. This is the recursion of both rewritings. -/
theorem map_withoutEmptyComments_cons (f : Node → Node) (c : Node) (cs : List Node) :
    (withoutEmptyComments (c :: cs)).map f
      = if isEmptyComment c then (withoutEmptyComments cs).map f
        else f c :: (withoutEmptyComments cs).map f := by
  unfold withoutEmptyComments
  by_cases h : isEmptyComment c = true
  · rw [List.filter_cons_of_neg (by simp [h]), if_pos h]
  · rw [List.filter_cons_of_pos (by simp [h]), if_neg h, List.map_cons]

/-- The children are normalized one by one, without the empty comments. -/
theorem normalizeAll_eq (cs : List Node) :
    normalizeAll cs = (withoutEmptyComments cs).map normalize := by
  induction cs with
  | nil => rfl
  | cons c cs ih => rw [normalizeAll, ih, map_withoutEmptyComments_cons]

/-- One pass goes through the children one by one, without the empty comments. -/
theorem onePassAll_eq (cs : List Node) :
    onePassAll cs = (withoutEmptyComments cs).map onePass := by
  induction cs with
  | nil => rfl
  | cons c cs ih => rw [onePassAll, ih, map_withoutEmptyComments_cons]

/-! ### What the rewritings keep -/

/-- Tidying twice is tidying once, with an element that counts as childless if it does so either
    time. -/
theorem tidyPayload_tidyPayload (payload : Payload) (a b : Bool) :
    tidyPayload b (tidyPayload a payload) = tidyPayload (a || b) payload := by
  cases payload with
  | element tag attributes selfClosing => simp [tidyPayload, Bool.or_assoc]
  | typeParameter name constraint default =>
    cases constraint with
    | none => rfl
    | some constraint =>
      by_cases h : isTopType constraint = true
      · simp [tidyPayload, h]
      · simp [tidyPayload, h]
  | _ => rfl

/-- Tidying keeps the kind. -/
theorem kind_tidyPayload (payload : Payload) (a : Bool) :
    (tidyPayload a payload).kind = payload.kind := by
  cases payload with
  | typeParameter name constraint default => cases constraint <;> rfl
  | _ => rfl

/-- Which members are kept depends on the kind only, so it does not matter whether the payload is
    tidied first. -/
theorem selectMembers_tidyPayload (payload : Payload) (a : Bool) :
    selectMembers (tidyPayload a payload) = selectMembers payload := by
  cases payload with
  | typeParameter name constraint default => cases constraint <;> rfl
  | _ => rfl

/-- Tidying leaves properties alone. -/
theorem propertyName?_tidyPayload (payload : Payload) (a : Bool) (s s' : Span)
    (cs ds : List Node) :
    (Node.mk (tidyPayload a payload) s cs).propertyName?
      = (Node.mk payload s' ds).propertyName? := by
  cases payload with
  | typeParameter name constraint default => cases constraint <;> rfl
  | _ => rfl

/-- Tidying leaves comments alone. -/
theorem isEmptyComment_tidyPayload (payload : Payload) (a : Bool) (s s' : Span)
    (cs ds : List Node) :
    isEmptyComment (Node.mk (tidyPayload a payload) s cs)
      = isEmptyComment (Node.mk payload s' ds) := by
  cases payload with
  | typeParameter name constraint default => cases constraint <;> rfl
  | _ => rfl

/-- Selecting members leaves some out and never reorders them. -/
theorem selectMembers_sublist (payload : Payload) (ms : List Node) :
    (selectMembers payload ms).Sublist ms := by
  unfold selectMembers
  split
  · exact firstOfEachName_sublist ms
  · exact List.Sublist.refl ms

/-- Selecting twice is selecting once. -/
theorem selectMembers_idem (payload : Payload) (ms : List Node) :
    selectMembers payload (selectMembers payload ms) = selectMembers payload ms := by
  cases payload with
  | interfaceBody => exact firstOfEachName_idem ms
  | _ => rfl

/-- What keeps the names of properties can be done before or after the selection. -/
theorem selectMembers_map (payload : Payload) {f : Node → Node}
    (hf : ∀ n, (f n).propertyName? = n.propertyName?) (ms : List Node) :
    selectMembers payload (ms.map f) = (selectMembers payload ms).map f := by
  cases payload with
  | interfaceBody => exact firstOfEachName_map hf ms
  | _ => rfl

/-- The first member is always kept, so a selection is empty only if there was nothing to select
    from. -/
theorem isEmpty_selectMembers (payload : Payload) (ms : List Node) :
    (selectMembers payload ms).isEmpty = ms.isEmpty := by
  cases payload with
  | interfaceBody => cases ms <;> rfl
  | _ => rfl

/-- A pass keeps the names of properties. -/
theorem propertyName?_onePass (n : Node) : (onePass n).propertyName? = n.propertyName? := by
  obtain ⟨payload, span, cs⟩ := n
  rw [onePass]
  exact propertyName?_tidyPayload payload _ _ _ _ _

/-- A pass makes no comment empty. -/
theorem isEmptyComment_onePass (n : Node) : isEmptyComment (onePass n) = isEmptyComment n := by
  obtain ⟨payload, span, cs⟩ := n
  rw [onePass]
  exact isEmptyComment_tidyPayload payload _ _ _ _ _

/-- Neither does normalizing. -/
theorem isEmptyComment_normalize (n : Node) : isEmptyComment (normalize n) = isEmptyComment n := by
  obtain ⟨payload, span, cs⟩ := n
  rw [normalize]
  exact isEmptyComment_tidyPayload payload _ _ _ _ _

/-- Nothing is left for a second removal of empty comments. -/
theorem withoutEmptyComments_select (payload : Payload) {f : Node → Node}
    (hf : ∀ n, isEmptyComment (f n) = isEmptyComment n) (cs : List Node) :
    withoutEmptyComments (selectMembers payload ((withoutEmptyComments cs).map f))
      = selectMembers payload ((withoutEmptyComments cs).map f) := by
  refine List.filter_eq_self.mpr fun x hx => ?_
  obtain ⟨c, hc, rfl⟩ := List.mem_map.mp ((selectMembers_sublist payload _).subset hx)
  rw [hf]
  exact (List.mem_filter.mp hc).2

/-! ### Two passes are enough -/

/-- A pass over the result of a rewriting `f` of the children: it comes to the children, and the
    members are chosen once more among those that were chosen before. -/
theorem selectMembers_onePassAll (payload : Payload) {f : Node → Node}
    (hf : ∀ n, isEmptyComment (f n) = isEmptyComment n) (cs : List Node) :
    selectMembers payload (onePassAll (selectMembers payload ((withoutEmptyComments cs).map f)))
      = selectMembers payload ((withoutEmptyComments cs).map fun c => onePass (f c)) := by
  rw [onePassAll_eq, withoutEmptyComments_select payload hf,
    selectMembers_map payload propertyName?_onePass, selectMembers_idem,
    ← selectMembers_map payload propertyName?_onePass, List.map_map]
  rfl

/-- **Two passes give the normal form.** The second one closes the elements that held nothing but
    empty comments. -/
theorem onePass_onePass (n : Node) : onePass (onePass n) = normalize n := by
  induction n with
  | node payload span cs ih =>
    have hcs : (withoutEmptyComments cs).map (fun c => onePass (onePass c))
        = (withoutEmptyComments cs).map normalize :=
      List.map_congr_left fun c hc => ih c (List.mem_filter.mp hc).1
    have hempty : (cs.isEmpty || (withoutEmptyComments cs).isEmpty)
        = (withoutEmptyComments cs).isEmpty := by
      cases cs with
      | nil => rfl
      | cons c cs => rfl
    rw [onePass, onePass, normalize, selectMembers_tidyPayload, onePassAll_eq cs,
      normalizeAll_eq cs, selectMembers_onePassAll payload isEmptyComment_onePass, hcs,
      tidyPayload_tidyPayload]
    simp only [isEmpty_selectMembers, List.isEmpty_map, hempty]

/-- **The normal form stays.** -/
theorem onePass_normalize (n : Node) : onePass (normalize n) = normalize n := by
  induction n with
  | node payload span cs ih =>
    have hcs : (withoutEmptyComments cs).map (fun c => onePass (normalize c))
        = (withoutEmptyComments cs).map normalize :=
      List.map_congr_left fun c hc => ih c (List.mem_filter.mp hc).1
    rw [normalize, onePass, selectMembers_tidyPayload, normalizeAll_eq cs,
      selectMembers_onePassAll payload isEmptyComment_normalize, hcs, tidyPayload_tidyPayload,
      Bool.or_self]

/-- A pass that leaves a structurally equal tree changes nothing, spans included. -/
theorem onePass_eq_of_beq {n : Node} (h : (onePass n == n) = true) : onePass n = n := by
  induction n with
  | node payload span cs ih =>
    rw [Node.beq_iff_bare, onePass, Node.bare, Node.bare, Node.mk.injEq] at h
    obtain ⟨hpayload, -, hbare⟩ := h
    rw [Node.bareAll_eq, Node.bareAll_eq] at hbare
    have hlen : (selectMembers payload (onePassAll cs)).length = cs.length := by
      simpa using congrArg List.length hbare
    -- No member is dropped, neither by its name nor as an empty comment.
    have hselect := (selectMembers_sublist payload (onePassAll cs)).length_le
    have hall : (onePassAll cs).length = (withoutEmptyComments cs).length := by
      rw [onePassAll_eq, List.length_map]
    have hfilter : (withoutEmptyComments cs).length ≤ cs.length := List.length_filter_le _ _
    have hcomments : withoutEmptyComments cs = cs :=
      List.filter_sublist.eq_of_length (by unfold withoutEmptyComments at *; omega)
    have hmembers : selectMembers payload (onePassAll cs) = onePassAll cs :=
      (selectMembers_sublist payload _).eq_of_length (by omega)
    rw [hmembers, onePassAll_eq, hcomments, List.map_map, List.map_inj_left] at hbare
    have hcs : cs.map onePass = cs := by
      conv_rhs => rw [← List.map_id cs]
      exact List.map_congr_left fun c hc => ih c hc (Node.beq_iff_bare.mpr (hbare c hc))
    rw [onePass, hpayload, hmembers, onePassAll_eq, hcomments, hcs]

/-! ### What a pass keeps of the whole tree -/

/-- The nodes of the tree after a pass come from nodes of the tree. -/
theorem exists_of_mem_parts_onePass {n m : Node} (h : m ∈ (onePass n).parts) :
    ∃ k ∈ n.parts, m = onePass k := by
  induction n with
  | node payload span cs ih =>
    rcases Node.mem_parts.mp h with rfl | ⟨c, hc, hm⟩
    · exact ⟨_, Node.mem_parts_self _, rfl⟩
    · rw [onePass] at hc
      have hc := (selectMembers_sublist payload _).subset hc
      rw [onePassAll_eq] at hc
      obtain ⟨d, hd, rfl⟩ := List.mem_map.mp hc
      have hd := (List.mem_filter.mp hd).1
      obtain ⟨k, hk, rfl⟩ := ih d hd hm
      exact ⟨k, Node.mem_parts_of_child hd hk, rfl⟩

/-- A pass adds no children. -/
theorem length_children_onePass (n : Node) :
    (onePass n).children.length ≤ n.children.length := by
  obtain ⟨payload, span, cs⟩ := n
  rw [onePass]
  have hselect := (selectMembers_sublist payload (onePassAll cs)).length_le
  rw [onePassAll_eq, List.length_map] at hselect
  rw [onePassAll_eq]
  exact hselect.trans (List.length_filter_le _ _)

/-- A pass keeps the kind of a node. -/
theorem kind_onePass (n : Node) : (onePass n).kind = n.kind := by
  obtain ⟨payload, span, cs⟩ := n
  rw [onePass]
  exact kind_tidyPayload payload _

/-- A pass makes no tree higher. -/
theorem height_onePass (n : Node) : (onePass n).height ≤ n.height := by
  induction n with
  | node payload span cs ih =>
    rw [onePass, Node.height, Node.height]
    refine Node.heightAll_le fun c hc => ?_
    have hc := (selectMembers_sublist payload _).subset hc
    rw [onePassAll_eq] at hc
    obtain ⟨d, hd, rfl⟩ := List.mem_map.mp hc
    have hd := (List.mem_filter.mp hd).1
    exact lt_of_le_of_lt (ih d hd) (Node.height_lt_heightAll hd)

end TreeLint.Builtin

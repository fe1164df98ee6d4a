import ConfigOverlay.Merge.Layers
import ConfigOverlay.Proofs.Merge.Keyed
import ConfigOverlay.Proofs.Merge.Swept

set_option autoImplicit false

namespace ConfigOverlay

def Element.Stays (e : Element) : Prop := e.selfFault? = none ∧ e.isSkeleton = false

theorem Element.stays_iff {e : Element} :
    e.Stays ↔ ∃ policy, e.selfPolicy = .ok policy ∧ policy ≠ some .defaults := by
  rw [Stays, selfFault?, isSkeleton, decide_eq_false_iff_not, Declares]
  cases e.selfPolicy <;> simp

def Node.AllStay (nodes : List Node) : Prop :=
  ∀ child, .element child ∈ nodes → child.Throughout Element.Stays

theorem Node.allStay_cons {node : Node} {rest : List Node} (h : Node.AllStay (node :: rest)) :
    Node.AllStay rest :=
  fun child hchild => h child (List.mem_cons_of_mem node hchild)

theorem leadsToSkeleton_eq_false {nodes : List Node} (h : Node.AllStay nodes) :
    leadsToSkeleton nodes = false := by
  induction nodes with
  | nil => rfl
  | cons node rest ih =>
    have hrest := ih (Node.allStay_cons h)
    cases node with
    | element e => simpa [leadsToSkeleton] using (h e List.mem_cons_self).here.2
    | text content => simp [leadsToSkeleton, hrest]
    | comment content => simp [leadsToSkeleton, hrest]

mutual
theorem Element.swept_eq_self : (e : Element) → Node.AllStay e.children → e.swept = e
  | ⟨_, _, children⟩, h => by
    rw [Element.swept, Node.sweptList_eq_self children h]

theorem Node.sweptList_eq_self : (nodes : List Node) → Node.AllStay nodes →
    Node.sweptList nodes = nodes
  | [], _ => rfl
  | .element e :: rest, h => by
    have he := h e List.mem_cons_self
    have hrest := Node.sweptList_eq_self rest (Node.allStay_cons h)
    have hbelow := Element.swept_eq_self e fun child hchild => he.child hchild
    simp [Node.sweptList, he.here.2, hrest, hbelow]
  | .text content :: rest, h => by
    have hrest := Node.sweptList_eq_self rest (Node.allStay_cons h)
    simp [Node.sweptList, leadsToSkeleton_eq_false (Node.allStay_cons h), hrest]
  | .comment content :: rest, h => by
    have hrest := Node.sweptList_eq_self rest (Node.allStay_cons h)
    simp [Node.sweptList, leadsToSkeleton_eq_false (Node.allStay_cons h), hrest]
end

theorem Node.selfFault?_eq_none {nodes : List Node} (h : Node.AllStay nodes) :
    Node.selfFault? nodes = none := by
  refine List.findSome?_eq_none_iff.2 fun node hnode => ?_
  cases node with
  | element e => exact (h e hnode).here.1
  | text content => rfl
  | comment content => rfl

mutual
theorem Element.sweepFault?_eq_none : (e : Element) → Node.AllStay e.children →
    e.sweepFault? = none
  | ⟨_, _, children⟩, h => by
    rw [Element.sweepFault?, Node.selfFault?_eq_none h, Node.sweepFaultBelow?_eq_none children h]
    rfl

theorem Node.sweepFaultBelow?_eq_none : (nodes : List Node) → Node.AllStay nodes →
    Node.sweepFaultBelow? nodes = none
  | [], _ => rfl
  | .element e :: rest, h => by
    have he := h e List.mem_cons_self
    have hrest := Node.sweepFaultBelow?_eq_none rest (Node.allStay_cons h)
    have hbelow := Element.sweepFault?_eq_none e fun child hchild => he.child hchild
    simp [Node.sweepFaultBelow?, hrest, hbelow]
  | .text content :: rest, h => by
    simpa [Node.sweepFaultBelow?] using Node.sweepFaultBelow?_eq_none rest (Node.allStay_cons h)
  | .comment content :: rest, h => by
    simpa [Node.sweepFaultBelow?] using Node.sweepFaultBelow?_eq_none rest (Node.allStay_cons h)
end

theorem Element.sweep_eq_self {e : Element} (h : Node.AllStay e.children) : e.sweep = .ok e := by
  rw [sweep_eq, sweepFault?_eq_none e h, swept_eq_self e h]

theorem Element.stays_of_plain {e : Element} (h : e.attrs.Plain) : e.Stays :=
  stays_iff.2 ⟨none, declared_eq_none h.noSelfPolicy _, nofun⟩

theorem Element.sweep_of_plain {e : Element} (h : e.Throughout (·.attrs.Plain)) :
    e.sweep = .ok e :=
  sweep_eq_self fun _ hchild => (h.child hchild).imp fun _ => stays_of_plain

theorem Node.filterMap_element?_sweptList (nodes : List Node) :
    (Node.sweptList nodes).filterMap Node.element? =
      ((nodes.filterMap Node.element?).filter fun e => !e.isSkeleton).map Element.swept := by
  induction nodes with
  | nil => rfl
  | cons node rest ih =>
    cases node with
    | element e => cases hskeleton : e.isSkeleton <;> simp [Node.sweptList, hskeleton, ih, element?]
    | text content =>
      rw [Node.sweptList]
      split <;> exact ih
    | comment content =>
      rw [Node.sweptList]
      split <;> exact ih

theorem Node.mem_of_mem_sweptList {nodes : List Node} {child : Element}
    (h : .element child ∈ Node.sweptList nodes) :
    ∃ original, .element original ∈ nodes ∧ original.isSkeleton = false ∧
      child = original.swept := by
  have hmem : child ∈ (Node.sweptList nodes).filterMap Node.element? :=
    List.mem_filterMap.2 ⟨_, h, rfl⟩
  rw [Node.filterMap_element?_sweptList] at hmem
  obtain ⟨original, horiginal, rfl⟩ := List.mem_map.1 hmem
  obtain ⟨hplace, hstays⟩ := List.mem_filter.1 horiginal
  exact ⟨original, Element.mem_of_mem_elements (e := ⟨"", .empty, nodes⟩) hplace,
    by simpa using hstays, rfl⟩

theorem Element.swept_eq (e : Element) : e.swept = ⟨e.tag, e.attrs, Node.sweptList e.children⟩ := by
  cases e
  rfl

theorem Element.key_swept (e : Element) : e.swept.key = e.key := by
  rw [e.swept_eq]
  rfl

theorem Element.elements_swept (e : Element) :
    e.swept.elements = (e.elements.filter fun x => !x.isSkeleton).map Element.swept := by
  rw [e.swept_eq]
  exact Node.filterMap_element?_sweptList e.children

/-- A sweep leaves no key more often than it stood. -/
theorem Element.countP_swept_le (e : Element) (key : Key) :
    e.swept.elements.countP (·.key = key) ≤ e.elements.countP (·.key = key) := by
  rw [e.elements_swept, List.countP_map]
  simp only [Function.comp_def, key_swept]
  exact List.filter_sublist.countP_le

theorem Element.Throughout.swept {p : Element → Prop} {e : Element}
    (hp : ∀ e : Element, p e → p e.swept) (h : e.Throughout p) : e.swept.Throughout p := by
  induction h with
  | @mk e hhere _ ih =>
    refine .mk (hp e hhere) fun child hchild => ?_
    rw [e.swept_eq] at hchild
    obtain ⟨original, hmem, -, rfl⟩ := Node.mem_of_mem_sweptList hchild
    exact ih original hmem

theorem Element.eq_swept_of_sweep {e tree : Element} (h : e.sweep = .ok tree) : tree = e.swept := by
  rw [sweep_eq] at h
  split at h
  · simp at h
  · exact (Except.ok.inj h).symm

theorem Layers.exists_swept_of_finish {layers : Layers} {tree : Element}
    (h : layers.finish = .ok tree) : ∃ root ∈ layers.merged, tree = root.swept := by
  rw [finish] at h
  cases hmerged : layers.merged with
  | none => simp [hmerged] at h
  | some root =>
    simp only [hmerged] at h
    exact ⟨root, rfl, Element.eq_swept_of_sweep h⟩

end ConfigOverlay

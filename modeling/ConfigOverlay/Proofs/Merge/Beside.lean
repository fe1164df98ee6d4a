import ConfigOverlay.Proofs.Merge.Followed
import Mathlib.Data.List.Forall2

/-!
Elements that are the same but for their children of one key, which are only related. A merge keeps
them so, if it keeps the children related: no other child is paired, dropped or placed in another
way. Whether the second merge gives a result when the first one does depends on these children, too,
so it is either known of them, or assumed.
-/

set_option autoImplicit false

namespace ConfigOverlay

variable {key : Key} {R S T : Element → Element → Prop} {certain : Prop}

/-- The same element of another key, or two related elements of this one. -/
inductive Element.Varies (key : Key) (R : Element → Element → Prop) : Element → Element → Prop where
  | same {e : Element} (other : e.key ≠ key) : Varies key R e e
  | related {e e' : Element} (here : e.key = key) (here' : e'.key = key) (relation : R e e') :
      Varies key R e e'

inductive Node.Varies (key : Key) (R : Element → Element → Prop) : Node → Node → Prop where
  | element {e e' : Element} (varies : e.Varies key R e') : Varies key R (.element e) (.element e')
  | leaf {node : Node} (leaf : node.element? = none) : Varies key R node node

structure Element.Beside (key : Key) (R : Element → Element → Prop) (e e' : Element) : Prop where
  tag : e'.tag = e.tag
  attrs : e'.attrs = e.attrs
  children : List.Forall₂ (Node.Varies key R) e.children e'.children

namespace Element

variable {e e' : Element}

theorem Varies.key_eq (h : e.Varies key R e') : e'.key = e.key := by
  cases h with
  | same => rfl
  | related here here' => exact here'.trans here.symm

theorem Varies.tag_eq (h : e.Varies key R e') : e'.tag = e.tag := congrArg Key.tag h.key_eq

theorem Varies.eq_of_ne (h : e.Varies key R e') (hne : e.key ≠ key) : e' = e := by
  cases h with
  | same => rfl
  | related here => exact absurd here hne

theorem Varies.relation (h : e.Varies key R e') (hkey : e.key = key) : R e e' := by
  cases h with
  | same other => exact absurd hkey other
  | related _ _ relation => exact relation

theorem Varies.imp (himp : ∀ e e', R e e' → S e e') (h : e.Varies key R e') :
    e.Varies key S e' := by
  cases h with
  | same other => exact .same other
  | related here here' relation => exact .related here here' (himp _ _ relation)

theorem Beside.imp (himp : ∀ e e', R e e' → S e e') (h : e.Beside key R e') :
    e.Beside key S e' := by
  refine ⟨h.tag, h.attrs, h.children.imp fun node node' hnode => ?_⟩
  cases hnode with
  | element varies => exact .element (varies.imp himp)
  | leaf leaf => exact .leaf leaf

theorem Beside.undeclared (h : e.Beside key R e') (hundeclared : e.Undeclared) : e'.Undeclared :=
  ⟨by rw [h.attrs]; exact hundeclared.noSelfPolicy,
    by rw [h.attrs]; exact hundeclared.noChildrenPolicy⟩

theorem beside_refl (h : ∀ child ∈ e.elements, child.key = key → R child child) :
    e.Beside key R e := by
  refine ⟨rfl, rfl, List.forall₂_same.2 fun node hnode => ?_⟩
  cases node with
  | element child =>
    by_cases hkey : child.key = key
    · exact .element (.related hkey hkey (h child (mem_elements_iff.2 hnode) hkey))
    · exact .element (.same hkey)
  | text content => exact .leaf rfl
  | comment content => exact .leaf rfl

/-- Without children of the key, an element is like itself whatever the relation is. -/
theorem beside_self (h : ∀ child ∈ e.elements, child.key ≠ key) : e.Beside key R e :=
  beside_refl fun child hchild hkey => absurd hkey (h child hchild)

theorem Beside.eq (h : e.Beside key Eq e') : e' = e := by
  obtain ⟨tag, attrs, children⟩ := e
  obtain ⟨tag', attrs', children'⟩ := e'
  obtain ⟨htag, hattrs, hchildren⟩ := h
  cases htag
  cases hattrs
  have hnode : ∀ node node', Node.Varies key Eq node node' → node = node' := fun _ _ hvaries => by
    cases hvaries with
    | element varies =>
      cases varies with
      | same => rfl
      | related _ _ relation => exact congrArg Node.element relation
    | leaf => rfl
  have heq := hchildren.imp hnode
  rw [List.forall₂_eq_eq_eq] at heq
  exact congrArg (Element.mk tag attrs) heq.symm

end Element

structure Sibling.Varies (key : Key) (R : Element → Element → Prop) (s s' : Sibling) : Prop where
  leading : s'.leading = s.leading
  element : s.element.Varies key R s'.element

theorem Sibling.Varies.key_eq {s s' : Sibling} (h : s.Varies key R s') : s'.key = s.key :=
  h.element.key_eq

theorem Siblings.group_varies {nodes nodes' : List Node}
    (h : List.Forall₂ (Node.Varies key R) nodes nodes') (pending : List Node) :
    List.Forall₂ (Sibling.Varies key R) (group pending nodes).elements
        (group pending nodes').elements ∧
      (group pending nodes').stray = (group pending nodes).stray := by
  induction h generalizing pending with
  | nil => exact ⟨.nil, rfl⟩
  | @cons node node' _ _ hnode _ ih =>
    cases hnode with
    | element varies =>
      obtain ⟨helements, hstray⟩ := ih []
      exact ⟨.cons ⟨rfl, varies⟩ helements, hstray⟩
    | leaf leaf =>
      cases node with
      | element e => simp [Node.element?] at leaf
      | text content =>
        rw [group, group]
        split
        · exact ih _
        · obtain ⟨helements, hstray⟩ := ih []
          exact ⟨helements, by rw [consStray, consStray, hstray]⟩
      | comment content => exact ih _

section

variable {below below' above above' : List Sibling}

theorem countP_varies (h : List.Forall₂ (Sibling.Varies key R) above above') {p : Sibling → Bool}
    (hp : ∀ s s', s.Varies key R s' → p s' = p s) : above'.countP p = above.countP p := by
  induction h with
  | nil => rfl
  | cons hs _ ih => rw [List.countP_cons, List.countP_cons, ih, hp _ _ hs]

theorem find?_varies (h : List.Forall₂ (Sibling.Varies key R) above above') {p : Sibling → Bool}
    (hp : ∀ s s', s.Varies key R s' → p s' = p s) :
    Option.Rel (Sibling.Varies key R) (above.find? p) (above'.find? p) := by
  induction h with
  | nil => exact .none
  | @cons s s' _ _ hs _ ih =>
    rw [List.find?_cons, List.find?_cons, hp s s' hs]
    cases p s with
    | true => exact .some hs
    | false => exact ih

theorem counterpart?_varies (hbelow : List.Forall₂ (Sibling.Varies key R) below below')
    (habove : List.Forall₂ (Sibling.Varies key S) above above') (k : Key) :
    Option.Rel (Sibling.Varies key S) (counterpart? below above k)
      (counterpart? below' above' k) := by
  have hkey {R : Element → Element → Prop} (s s' : Sibling) (h : s.Varies key R s') :
      decide (s'.key = k) = decide (s.key = k) := by rw [h.key_eq]
  have htag {R : Element → Element → Prop} (s s' : Sibling) (h : s.Varies key R s') :
      decide (s'.element.tag = k.tag) = decide (s.element.tag = k.tag) := by
    rw [h.element.tag_eq]
  rw [counterpart?, counterpart?, countP_varies hbelow hkey, countP_varies hbelow htag,
    countP_varies habove hkey, countP_varies habove htag]
  split
  · exact find?_varies habove hkey
  · exact .none

theorem counterpart?_varies_none (hbelow : List.Forall₂ (Sibling.Varies key R) below below')
    (habove : List.Forall₂ (Sibling.Varies key S) above above') {k : Key}
    (h : counterpart? below above k = none) : counterpart? below' above' k = none := by
  have hpair := counterpart?_varies hbelow habove k
  rw [h] at hpair
  cases hother : counterpart? below' above' k with
  | none => rfl
  | some other => simp [hother] at hpair

theorem counterpart?_varies_some (hbelow : List.Forall₂ (Sibling.Varies key R) below below')
    (habove : List.Forall₂ (Sibling.Varies key S) above above') {k : Key} {d : Sibling}
    (h : counterpart? below above k = some d) :
    ∃ d', counterpart? below' above' k = some d' ∧ d.Varies key S d' := by
  have hpair := counterpart?_varies hbelow habove k
  rw [h] at hpair
  cases hother : counterpart? below' above' k with
  | none => simp [hother] at hpair
  | some other =>
    rw [hother] at hpair
    exact ⟨other, rfl, by simpa using hpair⟩

def DroppedTogether (R : Element → Element → Prop) : Prop :=
  ∀ e e', R e e' → ∀ policy, e.selfPolicy = .ok policy → ∃ policy',
    e'.selfPolicy = .ok policy' ∧
      (policy' = some .overridableByTag ↔ policy = some .overridableByTag)

theorem isDroppedBy_varies (habove : List.Forall₂ (Sibling.Varies key S) above above')
    {s s' : Sibling} (hs : s.Varies key R s') {policy policy' : Option SelfPolicy}
    (hpolicy : policy' = some .overridableByTag ↔ policy = some .overridableByTag) :
    isDroppedBy above' s' policy' = isDroppedBy above s policy := by
  have hany : (above'.any fun d => d.element.tag = s'.element.tag) =
      above.any fun d => d.element.tag = s.element.tag := by
    rw [hs.element.tag_eq]
    induction habove with
    | nil => rfl
    | cons hd _ ih => rw [List.any_cons, List.any_cons, ih, hd.element.tag_eq]
  rw [isDroppedBy, isDroppedBy, hany, decide_eq_decide.2 hpolicy]

theorem retained_varies (hR : DroppedTogether R)
    (hbelow : List.Forall₂ (Sibling.Varies key R) below below')
    (habove : List.Forall₂ (Sibling.Varies key S) above above') {kept : List Sibling}
    (h : retained above below = .ok kept) :
    ∃ kept', retained above' below' = .ok kept' ∧
      List.Forall₂ (Sibling.Varies key R) kept kept' := by
  induction hbelow generalizing kept with
  | nil =>
    cases h
    exact ⟨[], rfl, .nil⟩
  | @cons s s' rest rest' hs _ ih =>
    rw [retained] at h
    cases hpolicy : s.element.selfPolicy with
    | error e => simp [hpolicy] at h
    | ok policy =>
      cases hrest : retained above rest with
      | error e => simp [hpolicy, hrest] at h
      | ok others =>
        simp only [hpolicy, hrest, Except.ok.injEq] at h
        subst h
        obtain ⟨others', hrest', hothers⟩ := ih hrest
        obtain ⟨policy', hpolicy', hsame⟩ : ∃ policy', s'.element.selfPolicy = .ok policy' ∧
            (policy' = some .overridableByTag ↔ policy = some .overridableByTag) := by
          by_cases hkey : s.element.key = key
          · exact hR _ _ (hs.element.relation hkey) policy hpolicy
          · exact ⟨policy, by rw [hs.element.eq_of_ne hkey, hpolicy], Iff.rfl⟩
        rw [retained, hpolicy', hrest']
        refine ⟨_, rfl, ?_⟩
        rw [isDroppedBy_varies habove hs hsame]
        split
        · exact hothers
        · exact .cons hs hothers

end

/-- Where the first outcome is a result, so is the second one, and the two are related. Unless it is
`certain` that the second one is a result, this is assumed. -/
def Accord {ε α β : Type} (certain : Prop) (N : α → β → Prop) (x : Except ε α) (x' : Except ε β) :
    Prop :=
  ∀ a, x = .ok a → (certain ∨ ∃ a', x' = .ok a') → ∃ a', x' = .ok a' ∧ N a a'

theorem accord_ok {ε α β : Type} {N : α → β → Prop} {a : α} {b : β} (h : N a b) :
    Accord certain N (.ok a : Except ε α) (.ok b) := by
  rintro _ ⟨⟩ -
  exact ⟨b, rfl, h⟩

theorem collect_accord {α β ε : Type} {f f' : α → Except ε (List β)} {N : β → β → Prop}
    {l l' : List α}
    (h : List.Forall₂ (fun a a' => Accord certain (List.Forall₂ N) (f a) (f' a')) l l') :
    Accord certain (List.Forall₂ N) (collect f l) (collect f' l') := by
  induction h with
  | nil => exact accord_ok .nil
  | cons hfirst _ ih =>
    intro out hout hmay
    obtain ⟨part, others, hpart, hothers, rfl⟩ := collect_cons_eq_ok hout
    obtain ⟨part', hpart', hrel⟩ := hfirst part hpart <| hmay.imp_right fun ⟨_, hout'⟩ => by
      obtain ⟨part', _, hpart', -, -⟩ := collect_cons_eq_ok hout'
      exact ⟨part', hpart'⟩
    obtain ⟨others', hothers', hrest⟩ := ih others hothers <| hmay.imp_right fun ⟨_, hout'⟩ => by
      obtain ⟨_, others', -, hothers', -⟩ := collect_cons_eq_ok hout'
      exact ⟨others', hothers'⟩
    exact ⟨part' ++ others', by rw [collect, hpart', hothers'], List.rel_append hrel hrest⟩

theorem Node.varies_layout {nodes : List Node} (h : ∀ node ∈ nodes, node.element? = none) :
    List.Forall₂ (Node.Varies key R) nodes nodes :=
  List.forall₂_same.2 fun node hnode => .leaf (h node hnode)

theorem Node.varies_placed {leading : List Node} {result result' : Option Element}
    (h : ∀ node ∈ leading, node.isLayout)
    (hresult : Option.Rel (Element.Varies key T) result result') :
    List.Forall₂ (Node.Varies key T) (Rules.placed leading result)
      (Rules.placed leading result') := by
  cases hresult with
  | none => exact .nil
  | some hvaries =>
    exact List.rel_append (Node.varies_layout fun node hnode => Node.element?_of_isLayout
      (h node hnode)) (.cons (.element hvaries) .nil)

def MergesAccord (certain : Prop) (R S T : Element → Element → Prop) : Prop :=
  ∀ lower lower' d d', Option.Rel R lower lower' → S d d' →
    Accord certain (Option.Rel T) (merge lower d) (merge lower' d')

theorem merge_varies (hmerges : MergesAccord certain R S T) {lower lower' : Option Element}
    {d d' : Element} (hlower : Option.Rel (Element.Varies key R) lower lower')
    (hd : d.Varies key S d') (hkey : ∀ a ∈ lower, a.key = d.key) (hunique : d.attrs.Unique)
    (hunique' : d'.attrs.Unique) :
    Accord certain (Option.Rel (Element.Varies key T)) (merge lower d) (merge lower' d') := by
  intro result h hmay
  have hkey' : ∀ a ∈ lower', a.key = d'.key := by
    cases hlower with
    | none => simp
    | some ha =>
      rintro _ ⟨⟩
      rw [ha.key_eq, hd.key_eq, hkey _ rfl]
  by_cases hhere : d.key = key
  · have hrelated : Option.Rel R lower lower' := by
      cases hlower with
      | none => exact .none
      | some ha => exact .some (ha.relation ((hkey _ rfl).trans hhere))
    obtain ⟨result', hresult', hrel⟩ :=
      hmerges lower lower' d d' hrelated (hd.relation hhere) result h hmay
    refine ⟨result', hresult', ?_⟩
    cases hrel with
    | none => exact .none
    | some relation =>
      refine .some (.related ((key_of_merge hunique hkey h).trans hhere) ?_ relation)
      exact (key_of_merge hunique' hkey' hresult').trans (hd.key_eq.trans hhere)
  · have hsame : lower' = lower := by
      cases hlower with
      | none => rfl
      | some ha => rw [ha.eq_of_ne (by rw [hkey _ rfl]; exact hhere)]
    refine ⟨result, by rw [hsame, hd.eq_of_ne hhere, h], ?_⟩
    cases result with
    | none => exact .none
    | some e => exact .some (.same (by rw [key_of_merge hunique hkey h]; exact hhere))

section

variable {below below' above above' : List Sibling}
  (hbelow : List.Forall₂ (Sibling.Varies key R) below below')
  (habove : List.Forall₂ (Sibling.Varies key S) above above')
  (hmerges : MergesAccord certain R S T)
  (hleading : ∀ d ∈ above, ∀ node ∈ d.leading, node.isLayout)
  (hunique : ∀ d ∈ above, d.element.attrs.Unique) (hunique' : ∀ d ∈ above', d.element.attrs.Unique)

include hbelow habove hmerges hleading hunique hunique'

theorem recessiveSteps_varies {s s' : Sibling} (hs : s.Varies key R s')
    (hlayout : ∀ node ∈ s.leading, node.isLayout)
    (hcopied : s.key = key → counterpart? below above key = none → T s.element s'.element) :
    Accord certain (List.Forall₂ (Node.Varies key T))
      (collect (Step.run merge) (s.recessiveSteps below above))
      (collect (Step.run merge) (s'.recessiveSteps below' above')) := by
  intro part h hmay
  cases hfind : counterpart? below above s.key with
  | none =>
    have hfind' := counterpart?_varies_none hbelow habove hfind
    rw [← hs.key_eq] at hfind'
    cases h.symm.trans (collect_recessiveSteps_of_none hfind)
    refine ⟨_, collect_recessiveSteps_of_none hfind', ?_⟩
    rw [hs.leading]
    refine Node.varies_placed hlayout (.some ?_)
    by_cases hkey : s.key = key
    · exact .related hkey (hs.key_eq.trans hkey) (hcopied hkey (hkey ▸ hfind))
    · rw [hs.element.eq_of_ne hkey]
      exact .same hkey
  | some d =>
    obtain ⟨d', hfind', hd⟩ := counterpart?_varies_some hbelow habove hfind
    rw [← hs.key_eq] at hfind'
    have hmem := counterpart?_mem hfind
    have hkey : s.element.key = d.element.key := (key_of_counterpart? hfind).symm
    obtain ⟨result, hresult, rfl⟩ := (collect_recessiveSteps_of_some hfind).1 h
    obtain ⟨result', hresult', hrel⟩ := merge_varies hmerges (.some hs.element) hd.element
      (by rintro a ⟨⟩; exact hkey) (hunique d hmem) (hunique' d' (counterpart?_mem hfind')) result
      hresult <| hmay.imp_right fun ⟨_, hpart'⟩ => by
        obtain ⟨result', hresult', -⟩ := (collect_recessiveSteps_of_some hfind').1 hpart'
        exact ⟨result', hresult'⟩
    refine ⟨_, (collect_recessiveSteps_of_some hfind').2 ⟨result', hresult', rfl⟩, ?_⟩
    rw [hd.leading, hs.leading]
    refine Node.varies_placed (fun node hnode => ?_) hrel
    split at hnode
    · exact hlayout node hnode
    · exact hleading d hmem node hnode

theorem dominantSteps_varies {d d' : Sibling} (hd : d.Varies key S d') (hmem : d ∈ above)
    (hmem' : d' ∈ above') :
    Accord certain (List.Forall₂ (Node.Varies key T))
      (collect (Step.run merge) (d.dominantSteps below above))
      (collect (Step.run merge) (d'.dominantSteps below' above')) := by
  intro part h hmay
  cases hfind : counterpart? below above d.key with
  | some other =>
    obtain ⟨other', hfind', -⟩ := counterpart?_varies_some hbelow habove hfind
    rw [← hd.key_eq] at hfind'
    cases h.symm.trans (collect_dominantSteps_of_some hfind)
    exact ⟨[], collect_dominantSteps_of_some hfind', .nil⟩
  | none =>
    have hfind' := counterpart?_varies_none hbelow habove hfind
    rw [← hd.key_eq] at hfind'
    obtain ⟨result, hresult, rfl⟩ := (collect_dominantSteps_of_none hfind).1 h
    obtain ⟨result', hresult', hrel⟩ := merge_varies hmerges .none hd.element (by simp)
      (hunique d hmem) (hunique' d' hmem') result hresult <| hmay.imp_right fun ⟨_, hpart'⟩ => by
        obtain ⟨result', hresult', -⟩ := (collect_dominantSteps_of_none hfind').1 hpart'
        exact ⟨result', hresult'⟩
    refine ⟨_, (collect_dominantSteps_of_none hfind').2 ⟨result', hresult', rfl⟩, ?_⟩
    rw [hd.leading]
    exact Node.varies_placed (hleading d hmem) hrel

end

theorem forall₂_mem {α β : Type} {P : α → β → Prop} {l : List α} {l' : List β}
    (h : List.Forall₂ P l l') : List.Forall₂ (fun a b => a ∈ l ∧ b ∈ l' ∧ P a b) l l' := by
  induction h with
  | nil => exact .nil
  | cons hfirst _ ih =>
    refine .cons ⟨List.mem_cons_self, List.mem_cons_self, hfirst⟩ (ih.imp ?_)
    exact fun _ _ ⟨ha, hb, h⟩ => ⟨List.mem_cons_of_mem _ ha, List.mem_cons_of_mem _ hb, h⟩

theorem siblingSteps_varies {below below' above above' : Siblings} {kept kept' : List Sibling}
    (hmerges : MergesAccord certain R S T) (hbelow : below.Grouped) (habove : above.Grouped)
    (hunique : ∀ d ∈ above.elements, d.element.attrs.Unique)
    (hunique' : ∀ d ∈ above'.elements, d.element.attrs.Unique)
    (hkept : ∀ s ∈ kept, s ∈ below.elements)
    (hvaries : List.Forall₂ (Sibling.Varies key R) kept kept')
    (hvaries' : List.Forall₂ (Sibling.Varies key S) above.elements above'.elements)
    (hstray : below'.stray = below.stray) (hstray' : above'.stray = above.stray)
    (hcopied : ∀ s ∈ kept, s.key = key → counterpart? kept above.elements key = none →
      ∀ e', R s.element e' → T s.element e') :
    Accord certain (List.Forall₂ (Node.Varies key T))
      (collect (Step.run merge) (siblingSteps below above kept))
      (collect (Step.run merge) (siblingSteps below' above' kept')) := by
  intro nodes h hmay
  obtain ⟨first, second, hfirst, hsecond, rfl⟩ := collect_siblingSteps_eq_ok.1 h
  have hrecessives := collect_accord ((forall₂_mem hvaries).imp fun s s' ⟨hs, _, hvary⟩ =>
    recessiveSteps_varies hvaries hvaries' hmerges habove.leading hunique hunique' hvary
      (hbelow.leading s (hkept s hs))
      fun hkey hnone => hcopied s hs hkey hnone _ (hvary.element.relation hkey))
  have hdominants := collect_accord ((forall₂_mem hvaries').imp fun d d' ⟨hd, hd', hvary⟩ =>
    dominantSteps_varies hvaries hvaries' hmerges habove.leading hunique hunique' hvary hd hd')
  obtain ⟨first', hfirst', hrel⟩ := hrecessives first hfirst <|
    hmay.imp_right fun ⟨_, hnodes'⟩ => by
      obtain ⟨first', _, hfirst', -, -⟩ := collect_siblingSteps_eq_ok.1 hnodes'
      exact ⟨first', hfirst'⟩
  obtain ⟨second', hsecond', hrel'⟩ := hdominants second hsecond <|
    hmay.imp_right fun ⟨_, hnodes'⟩ => by
      obtain ⟨_, second', -, hsecond', -⟩ := collect_siblingSteps_eq_ok.1 hnodes'
      exact ⟨second', hsecond'⟩
  have hstays : staysBeside above' = staysBeside above := by
    funext node
    rw [staysBeside, staysBeside, Siblings.hasText, Siblings.hasText, Siblings.hasBlankText,
      Siblings.hasBlankText, hstray']
  refine ⟨_, collect_siblingSteps_eq_ok.2 ⟨first', second', hfirst', hsecond', rfl⟩, ?_⟩
  rw [hstray, hstray', hstays]
  exact List.rel_append (List.rel_append (List.rel_append hrel hrel')
    (Node.varies_layout fun node hnode => hbelow.stray node (List.mem_filter.1 hnode).1))
    (Node.varies_layout habove.stray)

section

variable {below below' above above' : Element} {lower upper : Option Element}
  (hid : key.id ≠ none) (hmerges : MergesAccord certain R S T) (hdropped : DroppedTogether R)
  (hcopied : upper = none → ∀ a a', R a a' → T a a') (hbelow : below.Beside key R below')
  (habove : above.Beside key S above') (hroot : below.Undeclared) (hlayer : above.Traceable key)
  (hunique : ∀ child ∈ above'.elements, child.attrs.Unique) (hlower : below.Holds key lower)
  (hupper : above.Holds key upper)

include hid hmerges hdropped hcopied hbelow habove hroot hlayer hunique hlower hupper

/-- Roots that are the same beside related children of the key are merged into such roots, if the
merges of these children are related. A child that stays as it is, because there is none above, has
to be related in the new way, too. -/
theorem accord_of_merge :
    Accord certain (Option.Rel (Element.Beside key T)) (merge (some below) above)
      (merge (some below') above') := by
  intro result h hmay
  have hopens : ∀ x ∈ some below, x.Undeclared := by simpa using hroot
  have hopens' : ∀ x ∈ some below', x.Undeclared := by simpa using hbelow.undeclared hroot
  have habove' := habove.undeclared hlayer.undeclared
  obtain ⟨kept, nodes, hkept, hnodes, rfl⟩ := (merge_of_undeclared hopens hlayer.undeclared).1 h
  obtain ⟨hsiblings, hstray⟩ := Siblings.group_varies hbelow.children []
  obtain ⟨hsiblings', hstray'⟩ := Siblings.group_varies habove.children []
  obtain ⟨kept', hkept', hvaries⟩ := retained_varies hdropped hsiblings hsiblings' hkept
  obtain ⟨s, hs, -⟩ := hlower.retained hkept
  obtain ⟨d, hd, rfl⟩ := hupper.siblings
  have hstays : ∀ x ∈ kept, x.key = key →
      counterpart? kept above.siblings.elements key = none →
      ∀ e', R x.element e' → T x.element e' := by
    intro x hx hkey hnone
    have hmem : x ∈ kept.filter (·.key = key) := List.mem_filter.2 ⟨hx, decide_eq_true hkey⟩
    rw [hs, Option.mem_toList] at hmem
    rw [counterpart?_of_id hid hs hd, hmem, Option.bind_some] at hnone
    exact hcopied (by rw [hnone]; rfl) x.element
  obtain ⟨nodes', hnodes', hrel⟩ := siblingSteps_varies hmerges (grouped_siblingsOf (some below))
    (Siblings.grouped_ofNodes above.children)
    (fun d hd => (hlayer.unique.child (Siblings.element_mem_of_mem hd)).here)
    (fun d hd => hunique d.element (Element.mem_elements_iff.2 (Siblings.element_mem_of_mem hd)))
    (fun x hx => mem_of_mem_retained hkept hx) hvaries hsiblings' hstray hstray' hstays nodes
    hnodes <| hmay.imp_right fun ⟨_, hresult'⟩ => by
      obtain ⟨kept'', nodes', hkept'', hnodes', -⟩ :=
        (merge_of_undeclared hopens' habove').1 hresult'
      cases hkept'.symm.trans hkept''
      exact ⟨nodes', hnodes'⟩
  refine ⟨_, (merge_of_undeclared hopens' habove').2 ⟨kept', nodes', hkept', hnodes', rfl⟩, ?_⟩
  refine .some ⟨habove.tag, ?_, hrel⟩
  simp [mergedAttributes, hbelow.attrs, habove.attrs]

theorem beside_of_merge {merged : Element} (hcertain : certain)
    (h : merge (some below) above = .ok (some merged)) :
    ∃ merged', merge (some below') above' = .ok (some merged') ∧ merged.Beside key T merged' := by
  obtain ⟨result', hresult', hrel⟩ := accord_of_merge hid hmerges hdropped hcopied hbelow habove
    hroot hlayer hunique hlower hupper (some merged) h (.inl hcertain)
  cases hrel with
  | some hbeside => exact ⟨_, hresult', hbeside⟩

end

end ConfigOverlay

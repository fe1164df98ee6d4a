import ConfigOverlay.Configuration
import ConfigOverlay.Proofs.Property.Comparison
import ConfigOverlay.Proofs.Property.Marks
import ConfigOverlay.Proofs.Property.Sources
import Mathlib.Data.Finset.Card
import Mathlib.Data.Finset.SDiff
import Mathlib.Data.Fintype.Prod
import Mathlib.Tactic.Ring

/-!
Resolution comes to an end. Every name that is asked for at the top of a chain is a piece of the
text and the source text together, of which there are finitely many. On the way down, either a piece
is marked that was not, or the name gets shorter: alternatives mark nothing, and their placeholders
are shorter than the name that lists them.
-/

set_option autoImplicit false

namespace ConfigOverlay

def pieces (text : List Char) : Finset String :=
  (Finset.range (text.length + 1) ×ˢ Finset.range (text.length + 1)).image fun place =>
    String.ofList ((text.drop place.1).take place.2)

theorem mem_pieces {name : String} {text : List Char} (h : name.toList <:+: text) :
    name ∈ pieces text := by
  obtain ⟨before, after, rfl⟩ := h
  refine Finset.mem_image.2 ⟨(before.length, name.toList.length), ?_, ?_⟩
  · simp only [Finset.mem_product, Finset.mem_range, List.length_append]
    omega
  · rw [List.append_assoc, List.drop_left, List.take_left, String.ofList_toList]

theorem card_pieces_le (text : List Char) :
    (pieces text).card ≤ (text.length + 1) * (text.length + 1) := by
  refine Finset.card_image_le.trans ?_
  rw [Finset.card_product, Finset.card_range]

def unmarked (text : List Char) (marked : List String) : Nat :=
  (pieces text \ marked.toFinset).card

theorem unmarked_le (text : List Char) (marked : List String) :
    unmarked text marked ≤ (text.length + 1) * (text.length + 1) :=
  (Finset.card_le_card Finset.sdiff_subset).trans (card_pieces_le text)

theorem unmarked_cons_le (text : List Char) (marked : List String) (name : String) :
    unmarked text (name :: marked) ≤ unmarked text marked := by
  refine Finset.card_le_card (Finset.sdiff_subset_sdiff (Finset.Subset.refl _) ?_)
  rw [List.toFinset_cons]
  exact Finset.subset_insert _ _

theorem unmarked_cons_lt {text : List Char} {marked : List String} {name : String}
    (hname : name.toList <:+: text) (hmarked : name ∉ marked) :
    unmarked text (name :: marked) < unmarked text marked := by
  rw [unmarked, unmarked, List.toFinset_cons, Finset.sdiff_insert]
  refine Finset.card_erase_lt_of_mem (Finset.mem_sdiff.2 ⟨mem_pieces hname, ?_⟩)
  rwa [List.mem_toFinset]

variable {η σ : Type}

/-- Built of this library's resolvers, where what is expanded comes from plain ones. -/
inductive Resolver.ExpandsPlain : Resolver η → Prop where
  | table (entries : Table) : ExpandsPlain (.table entries)
  | document (root : Element) (matchRoot : Bool) : ExpandsPlain (.document root matchRoot)
  | environment : ExpandsPlain .environment
  | oneOf : ExpandsPlain .oneOf
  | under {inner : Resolver η} (lead : String) : ExpandsPlain inner →
    ExpandsPlain (.under lead inner)
  | firstOf {members : List (Resolver η)} :
    (∀ member ∈ members, ExpandsPlain member) → ExpandsPlain (.firstOf members)
  | expanding {inner : Resolver η} : inner.IsPlain → ExpandsPlain (.expanding inner)

/-- What a resolution may still cost: first comes the number of unmarked pieces, then the length of
the name. -/
def remaining (text : List Char) (marked : List String) (name : String) : Nat :=
  unmarked text marked * (text.length + 1) + name.length

section

variable {text : List Char} {marked : List String} {name : String} {depth : Nat}

theorem remaining_shorter {shorter : String} (h : shorter.length < name.length) :
    remaining text marked shorter < remaining text marked name := by
  simp only [remaining]
  omega

/-- Once a piece is marked, any piece costs less than that one did. -/
theorem remaining_marked {next : String} (hname : name.toList <:+: text) (hmarked : name ∉ marked)
    (hnext : next.toList <:+: text) :
    remaining text (name :: marked) next < remaining text marked name := by
  have hlength : next.length ≤ text.length := by
    simpa only [String.length_toList] using hnext.length_le
  have hless := Nat.mul_le_mul_right (text.length + 1) (unmarked_cons_lt hname hmarked)
  rw [Nat.succ_mul] at hless
  simp only [remaining]
  omega

theorem remaining_cons_le (other : String) :
    remaining text (other :: marked) name ≤ remaining text marked name := by
  have hless := Nat.mul_le_mul_right (text.length + 1) (unmarked_cons_le text marked other)
  simp only [remaining]
  omega

end

abbrev Lookup.Finishes {α : Type} (marked : List String) (x : Lookup σ α) : Prop :=
  x.Keeps marked (· ≠ .exhausted)

theorem failed_ne_exhausted (error : PropertyError) : Stop.failed error ≠ .exhausted :=
  Stop.noConfusion

section

variable {text : List Char} {depth : Nat} {around : Surroundings η σ} {resolve : Resolution σ}

/-- Resolving the pieces of a text works as long as they cost less than the bound. -/
def ResolvesPieces (text : List Char) (depth : Nat) (resolve : Resolution σ) : Prop :=
  ∀ marked name, name.toList <:+: text → remaining text marked name < depth →
    (resolve name).Finishes marked

theorem ResolvesPieces.expandText (h : ResolvesPieces text depth resolve) {marked : List String}
    {value : String} (hvalue : value.toList <:+: text)
    (hcost : ∀ name : String, name.toList <:+: text → remaining text marked name < depth) :
    (expandText resolve value).Finishes marked := by
  refine keeps_expandText (fun _ => failed_ne_exhausted _) fun name hname => ?_
  have hpiece := (Part.name_isInfix hname).trans hvalue
  exact h marked name hpiece (hcost name hpiece)

theorem ResolvesPieces.expandAround (h : ResolvesPieces text depth resolve) {inner : Resolver η}
    (hplain : inner.IsPlain) (hinner : inner.sourceText around.environment <:+: text)
    {marked : List String} {name : String} (hname : name.toList <:+: text)
    (hcost : remaining text marked name < depth + 1) :
    (expandAround Lookup.guarded resolve (inner.ask around Lookup.guarded resolve) name).Finishes
      marked := by
  -- the name is a mark that was not there, so inside there is room for any piece
  have hvalue : ∀ more : List String, (∀ next : String, next.toList <:+: text →
        remaining text more next < depth) → ∀ asked,
      (expandValue resolve (inner.ask around Lookup.guarded resolve) asked).Finishes more := by
    intro more hroom asked
    rw [expandValue, hplain.ask_eq asked, pure_bind]
    cases hv : inner.plainValue? around.environment asked with
    | none => exact Lookup.keeps_pure none
    | some value =>
      have hpiece := (Resolver.plainValue?_isInfix inner hv).trans hinner
      exact (h.expandText hpiece hroom).bind fun expanded => Lookup.keeps_pure _
  refine Lookup.Keeps.guarded (failed_ne_exhausted _) fun hmarked => ?_
  have hroom : ∀ next : String, next.toList <:+: text →
      remaining text (name :: marked) next < depth := by
    intro next hnext
    have := remaining_marked hname hmarked hnext
    omega
  refine (h.expandText hname hroom).bind fun expanded => ?_
  split
  · exact hvalue _ hroom name
  · refine Lookup.Keeps.guarded (failed_ne_exhausted _) fun _ => hvalue _ ?_ expanded
    intro next hnext
    exact Nat.lt_of_le_of_lt (remaining_cons_le expanded) (hroom next hnext)

theorem ResolvesPieces.ask (h : ResolvesPieces text depth resolve) {r : Resolver η}
    (hr : r.ExpandsPlain) (htext : r.sourceText around.environment <:+: text) :
    ResolvesPieces text (depth + 1) (r.ask around Lookup.guarded resolve) := by
  induction hr with
  | table entries => exact fun marked name _ _ => Lookup.keeps_pure _
  | document root matchRoot => exact fun marked name _ _ => Lookup.keeps_pure _
  | environment => exact fun marked name _ _ => Lookup.keeps_pure _
  | oneOf =>
    intro marked name hname hcost
    simp only [Resolver.ask]
    split
    · next body hbody =>
      have hsuffix := Text.isSuffix_of_stripLead hbody
      refine keeps_expandFirst? (fun _ => failed_ne_exhausted _) fun parts hparts next hnext => ?_
      have hpart := placeholder_mem_of_alternatives hparts hnext
      have hlength := Part.length_name_lt hpart
      have hbodyLength := hsuffix.length_le
      simp only [String.length_toList] at hbodyLength
      refine h marked next ((Part.name_isInfix hpart).trans (hsuffix.isInfix.trans hname)) ?_
      have := @remaining_shorter text marked name next (by omega)
      omega
    · exact Lookup.keeps_pure none
  | under lead _ ih =>
    intro marked name hname hcost
    simp only [Resolver.ask]
    split
    · next rest hrest =>
      have hsuffix := Text.isSuffix_of_stripLead hrest
      have hlength := hsuffix.length_le
      simp only [String.length_toList] at hlength
      rw [Resolver.sourceText] at htext
      refine ih htext marked rest (hsuffix.isInfix.trans hname) ?_
      simp only [remaining] at hcost ⊢
      omega
    · exact Lookup.keeps_pure none
  | firstOf _ ih =>
    intro marked name hname hcost
    rw [Resolver.sourceText] at htext
    refine keeps_askFirst (fun _ => failed_ne_exhausted _) fun member hmember => ?_
    exact ih member hmember ((Resolver.sourceText_isInfix hmember).trans htext) marked name hname
      hcost
  | expanding hplain =>
    intro marked name hname hcost
    rw [Resolver.sourceText] at htext
    exact h.expandAround hplain htext hname hcost

end

variable {chain : Resolver η} (around : Surroundings η σ)

theorem Resolver.ExpandsPlain.resolvesPieces (h : chain.ExpandsPlain) {text : List Char}
    (htext : chain.sourceText around.environment <:+: text) (depth : Nat) :
    ResolvesPieces text depth (chain.resolveWithin around Lookup.guarded depth) := by
  induction depth with
  | zero => exact fun _ _ _ hcost => absurd hcost (Nat.not_lt_zero _)
  | succ depth ih => exact ih.ask h htext

theorem remaining_lt_depthBound {size : Nat} {text : String} {source : List Char}
    (hsource : source.length ≤ size) (marked : List String) {name : String}
    (hname : name.toList <:+: text.toList ++ source) :
    remaining (text.toList ++ source) marked name < Resolver.depthBound size text := by
  have hlength : (text.toList ++ source).length ≤ size + text.length := by
    rw [List.length_append, String.length_toList]
    omega
  have hpiece : name.length ≤ (text.toList ++ source).length := by
    simpa only [String.length_toList] using hname.length_le
  have hcount := unmarked_le (text.toList ++ source) marked
  simp only [remaining, Resolver.depthBound, Nat.pow_eq]
  generalize (text.toList ++ source).length = length at *
  generalize size + text.length = bound at *
  have hcost : unmarked (text.toList ++ source) marked * (length + 1) ≤ (bound + 1) ^ 3 :=
    calc unmarked (text.toList ++ source) marked * (length + 1)
      _ ≤ (length + 1) * (length + 1) * (length + 1) := Nat.mul_le_mul_right _ hcount
      _ = (length + 1) ^ 3 := by ring
      _ ≤ (bound + 1) ^ 3 := Nat.pow_le_pow_left (by omega) 3
  have hspare : (bound + 1) ^ 3 + bound < (bound + 2) ^ 3 := by
    have : (bound + 2) ^ 3 = (bound + 1) ^ 3 + (3 * (bound + 1) ^ 2 + 3 * bound + 4) := by ring
    omega
  have hbound : (bound + 2) ^ 3 ≤ (bound + 64) ^ 3 := Nat.pow_le_pow_left (by omega) 3
  omega

theorem Resolver.ExpandsPlain.resolve_finishes (h : chain.ExpandsPlain) (marked : List String)
    (name : String) : (chain.resolve around name).Finishes marked := by
  have hsource := Resolver.length_sourceText_le around.environment chain
  have hpiece : name.toList <:+: name.toList ++ chain.sourceText around.environment :=
    (List.prefix_append _ _).isInfix
  exact h.resolvesPieces around (List.suffix_append _ _).isInfix _ marked name hpiece
    (remaining_lt_depthBound hsource marked hpiece)

theorem Resolver.ExpandsPlain.expand_finishes (h : chain.ExpandsPlain) (marked : List String)
    (text : String) : (chain.expand around text).Finishes marked := by
  have hsource := Resolver.length_sourceText_le around.environment chain
  have hpiece : text.toList <:+: text.toList ++ chain.sourceText around.environment :=
    (List.prefix_append _ _).isInfix
  exact (h.resolvesPieces around (List.suffix_append _ _).isInfix _).expandText hpiece
    fun name hname => remaining_lt_depthBound hsource marked hname

/-- From some bound on, the lookup ends at `s` with this result, and not because of the bound. -/
def Lookup.Returns {α : Type} (within : Nat → Lookup σ α) (s : Session σ)
    (result : EStateM.Result Stop (Session σ) α) : Prop :=
  (∀ t, result ≠ .error .exhausted t) ∧ ∃ depth, ∀ deeper, depth ≤ deeper → within deeper s = result

theorem Lookup.returns_of_ne {α : Type} {within : Nat → Lookup σ α} {depth : Nat} {s : Session σ}
    (hfollows : ∀ extra, (within depth).Follows Eq (· = .exhausted) (within (depth + extra)))
    (hne : ∀ t, within depth s ≠ .error .exhausted t) : Returns within s (within depth s) := by
  refine ⟨hne, depth, fun deeper hdeeper => ?_⟩
  obtain ⟨extra, rfl⟩ := Nat.le.dest hdeeper
  have hextra := hfollows extra s s rfl
  cases hr : within depth s with
  | ok a t =>
    rw [hr] at hextra
    obtain ⟨t', ht', rfl⟩ := hextra
    exact ht'
  | error stop t =>
    rw [hr] at hextra
    rcases hextra with rfl | ⟨t', ht', rfl⟩
    · exact absurd hr (hne t)
    · exact ht'

theorem Lookup.Finishes.returns {α : Type} {within : Nat → Lookup σ α} {depth : Nat}
    (hfollows : ∀ extra, (within depth).Follows Eq (· = .exhausted) (within (depth + extra)))
    (s : Session σ) (h : (within depth).Finishes s.inProgress) :
    Returns within s (within depth s) := by
  have hfinishes := h s rfl
  refine returns_of_ne hfollows fun t ht => ?_
  rw [ht] at hfinishes
  exact hfinishes.2 rfl

theorem Lookup.Returns.outcome_eq {α : Type} {within : Nat → Lookup σ α} {x : Lookup σ α}
    {s : Session σ} {depth : Nat} (h : Returns within s (x s))
    (hfollows : ∀ extra, (within depth).Follows Eq (· = .exhausted) (within (depth + extra)))
    (hne : (within depth).outcome s ≠ .error .exhausted) :
    x.outcome s = (within depth).outcome s := by
  obtain ⟨-, enough, hreturns⟩ := h
  have hhigher := (hfollows enough).outcome_eq (s := s) rfl
    fun stop hstop heq => hne (hstop.trans (congrArg _ heq))
  rw [← hhigher]
  exact (Lookup.outcome_congr (hreturns (depth + enough) (Nat.le_add_left enough depth))).symm

theorem Resolver.ExpandsPlain.resolve_returns (h : chain.ExpandsPlain) (s : Session σ)
    (name : String) :
    Lookup.Returns (fun depth => chain.resolveWithin around Lookup.guarded depth name) s
      (chain.resolve around name s) :=
  Lookup.Finishes.returns
    (fun extra => chain.resolveWithin_mono around (guarded_mono _) _ extra name) s
    (h.resolve_finishes around s.inProgress name)

theorem Resolver.ExpandsPlain.expand_returns (h : chain.ExpandsPlain) (s : Session σ)
    (text : String) :
    Lookup.Returns (fun depth => chain.expandWithin around Lookup.guarded depth text) s
      (chain.expand around text s) :=
  Lookup.Finishes.returns
    (fun extra => chain.expandWithin_mono around (guarded_mono _) _ extra text) s
    (h.expand_finishes around s.inProgress text)

theorem Resolver.ExpandsPlain.outcome_expand_ne (h : chain.ExpandsPlain) (s : Session σ)
    (text : String) : (chain.expand around text).outcome s ≠ .error .exhausted := by
  have hreturns := (h.expand_returns around s text).1
  intro hexhausted
  simp only [Lookup.outcome] at hexhausted
  cases hr : chain.expand around text s with
  | ok value t =>
    rw [hr] at hexhausted
    cases hexhausted
  | error stop t =>
    rw [hr] at hexhausted
    cases hexhausted
    exact hreturns t hr

theorem Resolver.standardChain_expandsPlain {resolvers : List (Resolver η)} (options : Options)
    (root : Element) (h : ∀ r ∈ resolvers, r.ExpandsPlain) :
    (standardChain resolvers options root).ExpandsPlain := by
  refine .firstOf fun member hmember => ?_
  simp only [List.mem_append, List.mem_singleton] at hmember
  rcases hmember with (((hcustom | rfl) | hsection) | henvironment) | rfl
  · exact h member hcustom
  · exact .oneOf
  · obtain ⟨e, -, rfl⟩ := Option.map_eq_some_iff.1 (Option.mem_toList.1 hsection)
    exact .expanding (.table _)
  · split at henvironment
    · rw [List.mem_singleton.1 henvironment]
      exact .expanding (.under _ .environment)
    · exact absurd henvironment List.not_mem_nil
  · exact .expanding (.document root _)

/-- Every chain of this library's resolvers that expands only what plain resolvers know gives an
answer, whatever the names, the values and the names in progress are. The standard chain is one. -/
theorem lookups_return :
    (∀ (resolvers : List (Resolver η)) (options : Options) (root : Element),
      (∀ r ∈ resolvers, r.ExpandsPlain) →
        (standardChain resolvers options root).ExpandsPlain) ∧
    ∀ chain : Resolver η, chain.ExpandsPlain →
      ∀ (around : Surroundings η σ) (s : Session σ) (text : String),
        Lookup.Returns (fun depth => chain.resolveWithin around Lookup.guarded depth text) s
          (chain.resolve around text s) ∧
        Lookup.Returns (fun depth => chain.expandWithin around Lookup.guarded depth text) s
          (chain.expand around text s) := by
  constructor
  · intro resolvers options root h
    exact Resolver.standardChain_expandsPlain options root h
  · intro chain h around s text
    exact ⟨h.resolve_returns around s text, h.expand_returns around s text⟩

def mutualProperties : Resolver Empty :=
  .expanding (.table (.ofPairs [("a", "${b}"), ("b", "${a}")]))

def noHost (environment : Environment) : Surroundings Empty Unit :=
  ⟨environment, fun source => source.elim⟩

theorem lookups_return_mutualProperties :
    (∀ r ∈ [mutualProperties], r.ExpandsPlain) ∧
    (standardChain [mutualProperties] .standard ⟨"config", .empty, []⟩).ExpandsPlain ∧
    Lookup.Returns (fun depth =>
        (standardChain [mutualProperties] .standard ⟨"config", .empty, []⟩).expandWithin
          (noHost .empty) Lookup.guarded depth "${a}")
      (Session.start ()) (.error (.failed (.circular "a")) (Session.start ())) := by
  have hcustom : ∀ r ∈ [mutualProperties], r.ExpandsPlain := by
    intro r hr
    rw [List.mem_singleton.1 hr]
    exact .expanding (.table _)
  have hchain := (@lookups_return Empty Unit).1 _ .standard ⟨"config", .empty, []⟩ hcustom
  exact ⟨hcustom, hchain,
    (lookups_return.2 _ hchain (noHost .empty) (Session.start ()) "${a}").2⟩

end ConfigOverlay

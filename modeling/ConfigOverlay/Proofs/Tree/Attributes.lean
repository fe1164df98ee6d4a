import ConfigOverlay.Tree.Attributes
import Mathlib.Data.List.Basic
import Mathlib.Data.List.Nodup

set_option autoImplicit false

namespace ConfigOverlay

theorem eraseDups_of_nodup {α : Type} [DecidableEq α] {l : List α} (h : l.Nodup) :
    l.eraseDups = l := by
  induction l with
  | nil => rfl
  | cons x l ih =>
    obtain ⟨hx, hl⟩ := List.nodup_cons.1 h
    have hothers : ∀ y ∈ l, (!y == x) = true := fun y hy => by
      have hne : y ≠ x := fun heq => hx (heq ▸ hy)
      simpa using hne
    rw [List.eraseDups_cons, List.filter_eq_self.2 hothers, ih hl]

theorem append_new_assoc {α : Type} [DecidableEq α] (l m n : List α) :
    l ++ m.filter (· ∉ l) ++ n.filter (· ∉ l ++ m.filter (· ∉ l)) =
      l ++ (m ++ n.filter (· ∉ m)).filter (· ∉ l) := by
  rw [List.filter_append, List.filter_filter, List.append_assoc]
  refine congrArg (fun rest => l ++ (m.filter (· ∉ l) ++ rest)) ?_
  refine List.filter_congr fun x _ => ?_
  by_cases hx : x ∈ l <;> simp [hx]

namespace Attributes

variable {a b c : Attributes} {name value : String}

instance : DecidablePred Unique := fun a => inferInstanceAs (Decidable (a.entries.map (·.1)).Nodup)

def names (a : Attributes) : List String := a.entries.map (·.1)

def last? (a : Attributes) (name : String) : Option String := a.entries.reverse.lookup name

theorem names_cons (entry : String × String) (entries : List (String × String)) :
    names ⟨entry :: entries⟩ = entry.1 :: names ⟨entries⟩ := rfl

theorem lookup_cons (entry : String × String) (entries : List (String × String)) :
    (entry :: entries).lookup name =
      if name = entry.1 then some entry.2 else entries.lookup name := by
  obtain ⟨n, v⟩ := entry
  rw [List.lookup_cons]
  by_cases h : name = n
  · simp [h]
  · simp [h, beq_eq_false_iff_ne.2 h]

theorem get?_eq_none_iff : a.get? name = none ↔ name ∉ a.names := by
  obtain ⟨entries⟩ := a
  simp only [get?, names]
  induction entries with
  | nil => simp
  | cons entry entries ih =>
    rw [lookup_cons, List.map_cons, List.mem_cons, not_or, ← ih]
    by_cases h : name = entry.1 <;> simp [h]

theorem erase_of_get?_eq_none (h : a.get? name = none) : a.erase name = a := by
  have hnames := get?_eq_none_iff.1 h
  obtain ⟨entries⟩ := a
  refine congrArg mk (List.eraseP_of_forall_not fun entry hentry heq => hnames ?_)
  exact List.mem_map.2 ⟨entry, hentry, of_decide_eq_true heq⟩

theorem names_set :
    (a.set name value).names = if name ∈ a.names then a.names else a.names ++ [name] := by
  obtain ⟨entries⟩ := a
  simp only [names, set]
  induction entries with
  | nil => rfl
  | cons entry entries ih =>
    obtain ⟨n, v⟩ := entry
    simp only [setEntry]
    split
    · next h => simp [h]
    · next h =>
      rw [List.map_cons, ih]
      by_cases hmem : name ∈ entries.map (·.1) <;> simp [hmem, Ne.symm h]

theorem get?_set (other : String) :
    (a.set name value).get? other = if other = name then some value else a.get? other := by
  obtain ⟨entries⟩ := a
  simp only [get?, set]
  induction entries with
  | nil => rw [setEntry, lookup_cons]
  | cons entry entries ih =>
    obtain ⟨n, v⟩ := entry
    simp only [setEntry]
    split
    · next h =>
      subst h
      rw [lookup_cons, lookup_cons]
      by_cases hother : other = n <;> simp [hother]
    · next h =>
      rw [lookup_cons, ih, lookup_cons]
      by_cases hother : other = n
      · simp [hother, h]
      · simp [hother]

theorem unique_set (h : a.Unique) : (a.set name value).Unique := by
  have hnames : (a.set name value).names.Nodup := by
    rw [names_set]
    split
    · exact h
    · next hname => exact List.nodup_append.2 ⟨h, by simp, fun n hn m hm => by
        rintro rfl
        exact hname (List.mem_singleton.1 hm ▸ hn)⟩
  exact hnames

theorem forall_mem_set {p : String × String → Prop} (h : ∀ entry ∈ a.entries, p entry)
    (hp : p (name, value)) : ∀ entry ∈ (a.set name value).entries, p entry := by
  obtain ⟨entries⟩ := a
  simp only [set]
  induction entries with
  | nil => simpa [setEntry] using hp
  | cons entry entries ih =>
    obtain ⟨n, v⟩ := entry
    obtain ⟨hentry, hentries⟩ := List.forall_mem_cons.1 h
    simp only [setEntry]
    split
    · next hn => exact List.forall_mem_cons.2 ⟨hn ▸ hp, hentries⟩
    · exact List.forall_mem_cons.2 ⟨hentry, ih hentries⟩

theorem unique_mapValues (f : String → String) (h : a.Unique) : (a.mapValues f).Unique := by
  rw [Unique, mapValues, List.map_map]
  exact h

theorem names_erase : (a.erase name).names = a.names.erase name := by
  rw [names, names, erase, List.erase_eq_eraseP, List.eraseP_map]
  refine congrArg (fun p => (a.entries.eraseP p).map (·.1)) (funext fun entry => ?_)
  rw [Function.comp_apply, BEq.comm]
  exact (beq_eq_decide entry.1 name).symm

theorem get?_erase_of_ne {other : String} (h : other ≠ name) :
    (a.erase name).get? other = a.get? other := by
  obtain ⟨entries⟩ := a
  simp only [get?, erase]
  induction entries with
  | nil => rfl
  | cons entry entries ih =>
    by_cases hentry : entry.1 = name
    · rw [List.eraseP_cons_of_pos (by simpa using hentry), lookup_cons,
        if_neg fun heq => h (heq.trans hentry)]
    · rw [List.eraseP_cons_of_neg (by simpa using hentry), lookup_cons, lookup_cons, ih]

theorem get?_erase (h : a.Unique) (name : String) : (a.erase name).get? name = none := by
  rw [get?_eq_none_iff, names_erase]
  exact List.Nodup.not_mem_erase h

theorem unique_erase (h : a.Unique) : (a.erase name).Unique := by
  have hnames : (a.erase name).names.Nodup := by
    rw [names_erase]
    exact List.Nodup.erase name h
  exact hnames

theorem erase_set : (a.set name value).erase name = a.erase name := by
  obtain ⟨entries⟩ := a
  refine congrArg mk ?_
  simp only [set]
  induction entries with
  | nil => simp [setEntry]
  | cons entry entries ih =>
    rw [setEntry]
    split
    · next h => simp [h]
    · next h =>
      rw [List.eraseP_cons_of_neg (by simpa using h), List.eraseP_cons_of_neg (by simpa using h),
        ih]

theorem erase_set_of_ne {other : String} (h : other ≠ name) :
    (a.set other value).erase name = (a.erase name).set other value := by
  obtain ⟨entries⟩ := a
  refine congrArg mk ?_
  simp only [set, erase]
  induction entries with
  | nil => simp [setEntry, h]
  | cons entry entries ih =>
    obtain ⟨n, v⟩ := entry
    by_cases hn : n = name
    · subst hn
      rw [setEntry, if_neg (Ne.symm h)]
      simp
    · rw [List.eraseP_cons_of_neg (by simpa using hn), setEntry, setEntry]
      split
      · rw [List.eraseP_cons_of_neg (by simpa using hn)]
      · rw [List.eraseP_cons_of_neg (by simpa using hn), ih]

theorem overlay_cons (entry : String × String) (entries : List (String × String)) :
    a.overlay ⟨entry :: entries⟩ = (a.set entry.1 entry.2).overlay ⟨entries⟩ := rfl

theorem last?_cons (entry : String × String) (entries : List (String × String)) :
    last? ⟨entry :: entries⟩ name =
      (last? ⟨entries⟩ name).or (if name = entry.1 then some entry.2 else none) := by
  rw [last?, List.reverse_cons, List.lookup_append, lookup_cons, List.lookup_nil]
  rfl

theorem last?_eq_none_iff : a.last? name = none ↔ name ∉ a.names := by
  rw [last?, ← List.mem_reverse, names, ← List.map_reverse]
  exact get?_eq_none_iff (a := ⟨a.entries.reverse⟩)

theorem get?_overlay_eq_or (a b : Attributes) (name : String) :
    (a.overlay b).get? name = (b.last? name).or (a.get? name) := by
  obtain ⟨entries⟩ := b
  induction entries generalizing a with
  | nil => rfl
  | cons entry entries ih =>
    rw [overlay_cons, ih, get?_set, last?_cons, Option.or_assoc]
    by_cases h : name = entry.1 <;> simp [h]

/-- New names come behind the others in the order in which they first occur. -/
theorem names_overlay_eq (a b : Attributes) :
    (a.overlay b).names = a.names ++ (b.names.filter (· ∉ a.names)).eraseDups := by
  obtain ⟨entries⟩ := b
  induction entries generalizing a with
  | nil => simp [overlay, names]
  | cons entry entries ih =>
    rw [overlay_cons, ih, names_set, names_cons, List.filter_cons]
    split
    · next h => rw [if_neg (by simpa using h)]
    · next h =>
      have hfilter : ((names ⟨entries⟩).filter (· ∉ a.names)).filter (fun n => !n == entry.1) =
          (names ⟨entries⟩).filter (· ∉ a.names ++ [entry.1]) := by
        rw [List.filter_filter]
        refine List.filter_congr fun other _ => ?_
        by_cases hother : other = entry.1 <;> simp [hother]
      rw [if_pos (by simpa using h), List.eraseDups_cons, hfilter, List.append_assoc,
        List.singleton_append]

theorem Unique.of_cons {entry : String × String} {entries : List (String × String)}
    (h : Unique ⟨entry :: entries⟩) : entry.1 ∉ names ⟨entries⟩ ∧ Unique ⟨entries⟩ :=
  List.nodup_cons.1 h

theorem Unique.erase_eq_filter (h : a.Unique) (name : String) :
    a.erase name = ⟨a.entries.filter (·.1 ≠ name)⟩ := by
  obtain ⟨entries⟩ := a
  refine congrArg mk ?_
  simp only
  induction entries with
  | nil => rfl
  | cons entry entries ih =>
    obtain ⟨hentry, hrest⟩ := h.of_cons
    by_cases hname : entry.1 = name
    · have hothers : ∀ other ∈ entries, other.1 ≠ name := fun other hother heq =>
        hentry (List.mem_map.2 ⟨other, hother, heq.trans hname.symm⟩)
      rw [List.eraseP_cons_of_pos (by simpa using hname),
        List.filter_cons_of_neg (by simpa using hname),
        List.filter_eq_self.2 (by simpa using hothers)]
    · rw [List.eraseP_cons_of_neg (by simpa using hname),
        List.filter_cons_of_pos (by simpa using hname), ih hrest]

theorem Unique.last?_eq_get? (h : a.Unique) (name : String) : a.last? name = a.get? name := by
  obtain ⟨entries⟩ := a
  simp only [get?]
  induction entries with
  | nil => rfl
  | cons entry entries ih =>
    rw [last?_cons, lookup_cons]
    by_cases hname : name = entry.1
    · rw [last?_eq_none_iff.2 (hname ▸ h.of_cons.1), if_pos hname, if_pos hname, Option.none_or]
    · rw [if_neg hname, if_neg hname, Option.or_none, ih h.of_cons.2]

theorem get?_overlay (hb : b.Unique) (name : String) :
    (a.overlay b).get? name = (b.get? name).or (a.get? name) := by
  rw [get?_overlay_eq_or, hb.last?_eq_get?]

theorem names_overlay (hb : b.Unique) :
    (a.overlay b).names = a.names ++ b.names.filter (· ∉ a.names) := by
  have hnew : (b.names.filter (· ∉ a.names)).Nodup := List.Nodup.filter _ hb
  rw [names_overlay_eq, eraseDups_of_nodup hnew]

theorem unique_overlay (h : a.Unique) : (a.overlay b).Unique := by
  obtain ⟨entries⟩ := b
  induction entries generalizing a with
  | nil => exact h
  | cons entry entries ih => exact ih (unique_set h)

theorem forall_mem_overlay {p : String × String → Prop} (ha : ∀ entry ∈ a.entries, p entry)
    (hb : ∀ entry ∈ b.entries, p entry) : ∀ entry ∈ (a.overlay b).entries, p entry := by
  obtain ⟨entries⟩ := b
  induction entries generalizing a with
  | nil => exact ha
  | cons entry entries ih =>
    obtain ⟨hentry, hentries⟩ := List.forall_mem_cons.1 hb
    exact ih (forall_mem_set ha hentry) hentries

theorem erase_overlay (h : b.get? name = none) :
    (a.overlay b).erase name = (a.erase name).overlay b := by
  obtain ⟨entries⟩ := b
  induction entries generalizing a with
  | nil => rfl
  | cons entry entries ih =>
    rw [get?_eq_none_iff, names_cons, List.mem_cons, not_or] at h
    rw [overlay_cons, overlay_cons, ih (get?_eq_none_iff.2 h.2), erase_set_of_ne (Ne.symm h.1)]

theorem eq_of_names_of_get? (ha : a.Unique) (hnames : a.names = b.names)
    (hget : ∀ name, a.get? name = b.get? name) : a = b := by
  obtain ⟨entries⟩ := a
  obtain ⟨entries'⟩ := b
  congr 1
  simp only [names, get?] at hnames hget
  induction entries generalizing entries' with
  | nil => exact (List.map_eq_nil_iff.1 hnames.symm).symm
  | cons entry entries ih =>
    cases entries' with
    | nil => simp at hnames
    | cons entry' entries' =>
      obtain ⟨n, v⟩ := entry
      obtain ⟨n', v'⟩ := entry'
      obtain ⟨rfl, hrest⟩ : n = n' ∧ entries.map (·.1) = entries'.map (·.1) := by simpa using hnames
      obtain rfl : v = v' := by simpa [lookup_cons] using hget n
      obtain ⟨hn, hunique⟩ := ha.of_cons
      rw [ih hunique entries' hrest fun name => ?_]
      by_cases h : name = n
      · have hnone : entries.lookup name = none := get?_eq_none_iff.2 (h ▸ hn)
        have hnone' : entries'.lookup name = none :=
          get?_eq_none_iff.2 (show name ∉ entries'.map (·.1) from hrest ▸ h ▸ hn)
        rw [hnone, hnone']
      · simpa [lookup_cons, h] using hget name

theorem empty_overlay (ha : a.Unique) : empty.overlay a = a := by
  refine eq_of_names_of_get? (unique_overlay List.nodup_nil) ?_ fun name => ?_
  · rw [names_overlay ha]
    simp [empty, names]
  · rw [get?_overlay ha]
    exact Option.or_none

theorem overlay_self (ha : a.Unique) : a.overlay a = a := by
  refine eq_of_names_of_get? (unique_overlay ha) ?_ fun name => ?_
  · rw [names_overlay ha]
    simp
  · rw [get?_overlay ha, Option.or_self]

theorem overlay_assoc (ha : a.Unique) (hb : b.Unique) (hc : c.Unique) :
    (a.overlay b).overlay c = a.overlay (b.overlay c) := by
  have hbc : (b.overlay c).Unique := unique_overlay hb
  refine eq_of_names_of_get? (unique_overlay (unique_overlay ha)) ?_ fun name => ?_
  · rw [names_overlay hc, names_overlay hb, names_overlay hbc, names_overlay hc, append_new_assoc]
  · rw [get?_overlay hc, get?_overlay hb, get?_overlay hbc, get?_overlay hc, Option.or_assoc]

theorem unique_ofPairs (pairs : List (String × String)) : (ofPairs pairs).Unique :=
  unique_overlay List.nodup_nil

theorem names_ofPairs (pairs : List (String × String)) :
    (ofPairs pairs).names = (pairs.map (·.1)).eraseDups := by
  rw [ofPairs, names_overlay_eq]
  simp [empty, names]

theorem get?_ofPairs (pairs : List (String × String)) (name : String) :
    (ofPairs pairs).get? name = last? ⟨pairs⟩ name := by
  rw [ofPairs, get?_overlay_eq_or]
  exact Option.or_none

/-- Overlaying attributes is a union in which the upper values win and the lower places stay: it is
associative, nothing is neutral in it on either side, and it leaves attributes over themselves as
they are. Attributes out of pairs are what comes of overlaying the pairs one after another: each
name is in its first place, with its last value. -/
theorem overlay_is_ordered_union (ha : a.Unique) (hb : b.Unique) (hc : c.Unique)
    (pairs : List (String × String)) :
    ((a.overlay b).Unique ∧ (a.overlay b).names = a.names ++ b.names.filter (· ∉ a.names) ∧
        ∀ name, (a.overlay b).get? name = (b.get? name).or (a.get? name)) ∧
      (a.overlay b).overlay c = a.overlay (b.overlay c) ∧
      (empty.overlay a = a ∧ a.overlay empty = a) ∧ a.overlay a = a ∧
      (ofPairs pairs = pairs.foldl (fun attrs pair => attrs.overlay ⟨[pair]⟩) empty ∧
        (ofPairs pairs).Unique ∧ (ofPairs pairs).names = (pairs.map (·.1)).eraseDups ∧
        ∀ name, (ofPairs pairs).get? name = last? ⟨pairs⟩ name) := by
  refine ⟨⟨unique_overlay ha, names_overlay hb, get?_overlay hb⟩, overlay_assoc ha hb hc,
    ⟨empty_overlay ha, rfl⟩, overlay_self ha, ?_⟩
  exact ⟨rfl, unique_ofPairs pairs, names_ofPairs pairs, get?_ofPairs pairs⟩

theorem overlay_is_ordered_union_address :
    let base : Attributes := ⟨[("host", "a"), ("port", "1")]⟩
    let site : Attributes := ⟨[("port", "2"), ("user", "u")]⟩
    let user : Attributes := ⟨[("user", "v"), ("host", "b")]⟩
    let pairs := [("port", "1"), ("host", "a"), ("port", "2")]
    (base.Unique ∧ site.Unique ∧ user.Unique) ∧
      (base.overlay site).names = ["host", "port", "user"] ∧
      (base.overlay site).get? "port" = some "2" ∧ (base.overlay site).get? "host" = some "a" ∧
      (base.overlay site).overlay user = base.overlay (site.overlay user) ∧
      (ofPairs pairs).names = ["port", "host"] ∧ (ofPairs pairs).get? "port" = some "2" := by
  intro base site user pairs
  have hunique : base.Unique ∧ site.Unique ∧ user.Unique := by decide
  obtain ⟨⟨-, hnames, hget⟩, hassoc, -, -, -, -, hfirst, hlast⟩ :=
    overlay_is_ordered_union hunique.1 hunique.2.1 hunique.2.2 pairs
  exact ⟨hunique, hnames.trans (by decide), (hget "port").trans (by decide),
    (hget "host").trans (by decide), hassoc, hfirst.trans (by decide),
    (hlast "port").trans (by decide)⟩

end Attributes

end ConfigOverlay

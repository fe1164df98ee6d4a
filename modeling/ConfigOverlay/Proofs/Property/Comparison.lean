import ConfigOverlay.Proofs.Property.Congruence

/-!
Comparing lookups. One lookup follows another one if it ends in the same way, begun in a related
session, unless the first one stops for a reason that is left open.
-/

set_option autoImplicit false

namespace ConfigOverlay

variable {η σ α β : Type}

/-- Begun in related sessions, `y` ends as `x` does and leaves related sessions, unless `x` stops
for a reason that is left open. -/
def Lookup.Follows (P : Session σ → Session σ → Prop) (Open : Stop → Prop) (x y : Lookup σ α) :
    Prop :=
  ∀ s t, P s t →
    match x s with
    | .ok a s' => ∃ t', y t = .ok a t' ∧ P s' t'
    | .error stop s' => Open stop ∨ ∃ t', y t = .error stop t' ∧ P s' t'

section

variable {P : Session σ → Session σ → Prop} {Open : Stop → Prop}

namespace Lookup

theorem follows_pure (a : α) : Follows P Open (pure a) (pure a) := fun _ t h => ⟨t, rfl, h⟩

theorem follows_fail (error : PropertyError) :
    Follows P Open (fail error : Lookup σ α) (fail error) := fun _ t h => .inr ⟨t, rfl, h⟩

theorem Follows.bind {x y : Lookup σ α} {f g : α → Lookup σ β} (hxy : Follows P Open x y)
    (hfg : ∀ a, Follows P Open (f a) (g a)) : Follows P Open (x >>= f) (y >>= g) := by
  intro s t hst
  have hs := hxy s t hst
  simp only [Bind.bind, EStateM.bind]
  cases hx : x s with
  | ok a s' =>
    rw [hx] at hs
    obtain ⟨t', hy, ht'⟩ := hs
    rw [hy]
    exact hfg a s' t' ht'
  | error stop s' =>
    rw [hx] at hs
    rcases hs with hopen | ⟨t', hy, ht'⟩
    · exact .inl hopen
    · rw [hy]
      exact .inr ⟨t', rfl, ht'⟩

theorem Follows.trans {x y z : Lookup σ α} (hxy : Follows P Open x y) (hyz : Follows Eq Open y z) :
    Follows P Open x z := by
  intro s t hst
  have hs := hxy s t hst
  have ht := hyz t t rfl
  cases hx : x s with
  | ok a s' =>
    rw [hx] at hs
    obtain ⟨t', hy, ht'⟩ := hs
    rw [hy] at ht
    obtain ⟨_, hz, rfl⟩ := ht
    exact ⟨t', hz, ht'⟩
  | error stop s' =>
    rw [hx] at hs
    rcases hs with hopen | ⟨t', hy, ht'⟩
    · exact .inl hopen
    · rw [hy] at ht
      rcases ht with hopen | ⟨_, hz, rfl⟩
      · exact .inl hopen
      · exact .inr ⟨t', hz, ht'⟩

theorem Follows.orAbsent {x y : Lookup σ (Option α)} (hxy : Follows P Open x y)
    (hopen : ∀ name, ¬ Open (.failed (.notFound name))) :
    Follows P Open x.orAbsent y.orAbsent := by
  intro s t hst
  have hs := hxy s t hst
  simp only [Lookup.orAbsent]
  cases hx : x s with
  | ok a s' =>
    rw [hx] at hs
    obtain ⟨t', hy, ht'⟩ := hs
    rw [hy]
    exact ⟨t', rfl, ht'⟩
  | error stop s' =>
    rw [hx] at hs
    match stop with
    | .failed (.notFound name) =>
      obtain ⟨t', hy, ht'⟩ := hs.resolve_left (hopen name)
      rw [hy]
      exact ⟨t', rfl, ht'⟩
    | .failed (.circular _) | .exhausted =>
      rcases hs with h | ⟨t', hy, ht'⟩
      · exact .inl h
      · rw [hy]
        exact .inr ⟨t', rfl, ht'⟩

end Lookup

open Lookup

theorem follows_congruence (hopen : ∀ name, ¬ Open (.failed (.notFound name))) :
    Congruence (σ := σ) (Follows P Open) where
  pure := follows_pure
  bind := Follows.bind
  notFound name := follows_fail (.notFound name)
  orAbsent hxy := hxy.orAbsent hopen

/-- Marking a name keeps sessions related; where it cannot be marked, the same is so on the other
side, or it is left open. -/
theorem guarded_follows
    (hmarked : ∀ {s t name}, P s t → name ∈ s.inProgress →
      Open (.failed (.circular name)) ∨ name ∈ t.inProgress)
    (hfree : ∀ {s t name}, P s t → name ∉ s.inProgress → name ∉ t.inProgress)
    (henter : ∀ {s t name}, P s t → P (s.enter name) (t.enter name))
    (hleave : ∀ {s t name}, P s t → P (s.leave name) (t.leave name)) :
    GuardsRelate (Follows P Open) Lookup.guarded Lookup.guarded := by
  intro name x y hxy s t hst
  by_cases hname : name ∈ s.inProgress
  · rw [guarded_of_mem x hname]
    rcases hmarked hst hname with hopen | ht
    · exact .inl hopen
    · exact .inr ⟨t, guarded_of_mem y ht, hst⟩
  · have hbody := hxy _ _ (@henter s t name hst)
    rw [guarded_of_not_mem x hname, guarded_of_not_mem y (hfree hst hname)]
    cases hx : x (s.enter name) with
    | ok a s' =>
      rw [hx] at hbody
      obtain ⟨t', hy, ht'⟩ := hbody
      rw [hy]
      exact ⟨_, rfl, hleave ht'⟩
    | error stop s' =>
      rw [hx] at hbody
      rcases hbody with hopen | ⟨t', hy, ht'⟩
      · exact .inl hopen
      · rw [hy]
        exact .inr ⟨_, rfl, hleave ht'⟩

structure Session.Carried (P : Session σ → Session σ → Prop) : Prop where
  host_eq : ∀ {s t}, P s t → s.host = t.host
  noted : ∀ {s t} note, P s t →
    P { s with notes := note :: s.notes } { t with notes := note :: t.notes }
  asked : ∀ {s t} host, P s t → P { s with host := host } { t with host := host }

theorem Session.Carried.hostRelates (hP : Session.Carried P) (around : Surroundings η σ) :
    HostRelates (Follows P Open) around where
  noted label name _ _ hst := ⟨_, rfl, hP.noted (label, name) hst⟩
  asked source name := by
    intro s t hst
    simp only [askHost, ← hP.host_eq hst]
    rcases around.askHost source name s.host with ⟨answer, host⟩
    cases answer with
    | ok value => exact ⟨_, rfl, hP.asked host hst⟩
    | error e => exact .inr ⟨_, rfl, hP.asked host hst⟩

variable {guard guard' : Guard σ}

/-- A chain asked with `guard` follows itself asked with `guard'` within a bound that is no lower. -/
theorem resolveWithin_follows (around : Surroundings η σ) {chain : Resolver η}
    (hP : ¬ chain.IsOwn → Session.Carried P) (hopen : ∀ name, ¬ Open (.failed (.notFound name)))
    (hexhausted : Open .exhausted) (hguard : GuardsRelate (Follows P Open) guard guard')
    (depth extra : Nat) (name : String) :
    Follows P Open (chain.resolveWithin around guard depth name)
      (chain.resolveWithin around guard' (depth + extra) name) := by
  induction depth generalizing name with
  | zero => exact fun _ _ _ => .inl hexhausted
  | succ depth ih =>
    rw [Nat.succ_add]
    exact (follows_congruence hopen).ask (fun h => (hP h).hostRelates around) hguard ih name

end

def Lookup.outcome (x : Lookup σ α) (s : Session σ) : Except Stop α :=
  match x s with
  | .ok a _ => .ok a
  | .error stop _ => .error stop

theorem Lookup.exists_of_outcome {x : Lookup σ α} {s : Session σ} {a : α}
    (h : x.outcome s = .ok a) : ∃ t, x s = .ok a t := by
  simp only [outcome] at h
  cases hx : x s with
  | ok b t =>
    rw [hx] at h
    cases h
    exact ⟨t, rfl⟩
  | error stop t =>
    rw [hx] at h
    cases h

theorem Lookup.outcome_congr {x y : Lookup σ α} {s t : Session σ} (h : x s = y t) :
    x.outcome s = y.outcome t := by
  simp only [outcome, h]

theorem Lookup.Follows.outcome_eq {P : Session σ → Session σ → Prop} {Open : Stop → Prop}
    {x y : Lookup σ α} {s t : Session σ} (h : Follows P Open x y) (hst : P s t)
    (hopen : ∀ stop, x.outcome s = .error stop → ¬ Open stop) : y.outcome t = x.outcome s := by
  have hs := h s t hst
  simp only [outcome] at hopen ⊢
  cases hx : x s with
  | ok a s' =>
    rw [hx] at hs
    obtain ⟨t', hy, -⟩ := hs
    rw [hy]
  | error stop s' =>
    rw [hx] at hs hopen
    obtain ⟨t', hy, -⟩ := hs.resolve_left (hopen stop rfl)
    rw [hy]

theorem Session.carried_eq : @Session.Carried σ Eq where
  host_eq h := congrArg Session.host h
  noted _ h := by rw [h]
  asked _ h := by rw [h]

theorem guarded_mono (Open : Stop → Prop) :
    GuardsRelate (σ := σ) (Lookup.Follows Eq Open) Lookup.guarded Lookup.guarded :=
  guarded_follows (fun h hs => .inr (h ▸ hs)) (fun h hs => h ▸ hs) (fun h => by rw [h])
    (fun h => by rw [h])

namespace Resolver

variable (around : Surroundings η σ) (chain : Resolver η) {guard : Guard σ}
  (hguard : GuardsRelate (Lookup.Follows Eq (· = .exhausted)) guard guard)

include hguard

/-- A higher bound changes nothing but that a lookup is stopped by it. -/
theorem resolveWithin_mono (depth extra : Nat) (name : String) :
    (chain.resolveWithin around guard depth name).Follows Eq (· = .exhausted)
      (chain.resolveWithin around guard (depth + extra) name) := by
  refine resolveWithin_follows around (fun _ => Session.carried_eq) ?_ ?_ hguard depth extra name
  · exact fun _ h => Stop.noConfusion h
  · rfl

theorem expandWithin_mono (depth extra : Nat) (text : String) :
    (chain.expandWithin around guard depth text).Follows Eq (· = .exhausted)
      (chain.expandWithin around guard (depth + extra) text) :=
  (follows_congruence fun _ => nofun).expandText fun name _ =>
    chain.resolveWithin_mono around hguard depth extra name

end Resolver

end ConfigOverlay

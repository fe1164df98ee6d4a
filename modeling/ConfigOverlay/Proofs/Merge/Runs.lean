import ConfigOverlay.Merge.Layers
import Mathlib.Data.List.Forall2

set_option autoImplicit false

namespace ConfigOverlay.Layers

variable {layers run : Layers} {layer : Element} {first rest : List Element}

theorem push_eq_ok (h : layers.push layer = .ok run) :
    (layers.merged = none ∧ run.merged = some layer) ∨
      ∃ below merged, layers.merged = some below ∧ merge (some below) layer = .ok (some merged) ∧
        run.merged = some merged := by
  rw [push] at h
  cases hmerged : layers.merged with
  | none =>
    simp only [hmerged, Except.ok.injEq] at h
    exact .inl ⟨rfl, h ▸ rfl⟩
  | some below =>
    cases hresult : merge (some below) layer with
    | error e => simp [hmerged, hresult] at h
    | ok result =>
      cases result with
      | none => simp [hmerged, hresult] at h
      | some merged =>
        simp only [hmerged, hresult, Except.ok.injEq] at h
        exact .inr ⟨below, merged, rfl, hresult, h ▸ rfl⟩

theorem push_eq {below merged : Element} (hbelow : layers.merged = some below)
    (h : merge (some below) layer = .ok (some merged)) :
    layers.push layer = .ok ⟨some merged, layers.count + 1⟩ := by
  simp only [push, hbelow, h]

theorem count_of_push (h : layers.push layer = .ok run) : run.count = layers.count + 1 := by
  rw [push] at h
  split at h
  · cases h
    rfl
  · split at h <;> cases h
    rfl

theorem merged_ne_none_of_push (h : layers.push layer = .ok run) : run.merged ≠ none := by
  rcases push_eq_ok h with ⟨-, hmerged⟩ | ⟨_, _, -, -, hmerged⟩ <;> simp [hmerged]

theorem pushAll_cons {next : Layers} (h : layers.push layer = .ok next) :
    layers.pushAll (layer :: rest) = next.pushAll rest := by
  rw [pushAll, h]

theorem pushAll_cons_eq_ok (h : layers.pushAll (layer :: rest) = .ok run) :
    ∃ next, layers.push layer = .ok next ∧ next.pushAll rest = .ok run := by
  rw [pushAll] at h
  cases hnext : layers.push layer with
  | error e => simp [hnext] at h
  | ok next =>
    simp only [hnext] at h
    exact ⟨next, rfl, h⟩

theorem pushAll_append_eq_ok (h : layers.pushAll (first ++ rest) = .ok run) :
    ∃ middle, layers.pushAll first = .ok middle ∧ middle.pushAll rest = .ok run := by
  induction first generalizing layers with
  | nil => exact ⟨layers, rfl, h⟩
  | cons layer first ih =>
    obtain ⟨next, hnext, hothers⟩ := pushAll_cons_eq_ok h
    obtain ⟨middle, hmiddle, hrest⟩ := ih hothers
    exact ⟨middle, (pushAll_cons hnext).trans hmiddle, hrest⟩

theorem pushAll_append {middle : Layers} (h : layers.pushAll first = .ok middle) :
    layers.pushAll (first ++ rest) = middle.pushAll rest := by
  induction first generalizing layers with
  | nil =>
    cases h
    rfl
  | cons layer first ih =>
    obtain ⟨next, hnext, hothers⟩ := pushAll_cons_eq_ok h
    exact (pushAll_cons hnext).trans (ih hothers)

theorem pushAll_snoc {middle next : Layers} (h : layers.pushAll first = .ok middle)
    (hnext : middle.push layer = .ok next) : layers.pushAll (first ++ [layer]) = .ok next := by
  rw [pushAll_append h, pushAll_cons hnext]
  rfl

/-- What holds at the start and is kept by each layer, holds in the end. The state to which a layer
is added is that of the layers before it. -/
theorem pushAll_induction {P : Layers → Prop} (hstart : P layers)
    (hstep : ∀ before layer after middle next, rest = before ++ layer :: after →
      layers.pushAll before = .ok middle → P middle → middle.push layer = .ok next → P next)
    (h : layers.pushAll rest = .ok run) : P run := by
  induction rest generalizing layers with
  | nil =>
    cases h
    exact hstart
  | cons layer rest ih =>
    obtain ⟨next, hnext, hothers⟩ := pushAll_cons_eq_ok h
    refine ih (hstep [] layer rest layers next rfl rfl hstart hnext) ?_ hothers
    intro before other after middle last hrest hmiddle hkept hlast
    refine hstep (layer :: before) other after middle last (by rw [hrest]; rfl) ?_ hkept hlast
    exact (pushAll_cons hnext).trans hmiddle

theorem pushAll_induction₂ {P : Layers → Layers → Prop} {Q : Element → Element → Prop}
    {layers' run' : Layers} {rest' : List Element} (hstart : P layers layers')
    (hstep : ∀ layer layer' middle middle' next next', Q layer layer' → P middle middle' →
      middle.push layer = .ok next → middle'.push layer' = .ok next' → P next next')
    (hrest : List.Forall₂ Q rest rest') (h : layers.pushAll rest = .ok run)
    (h' : layers'.pushAll rest' = .ok run') : P run run' := by
  induction hrest generalizing layers layers' with
  | nil =>
    cases h
    cases h'
    exact hstart
  | cons hlayer _ ih =>
    obtain ⟨next, hnext, hothers⟩ := pushAll_cons_eq_ok h
    obtain ⟨next', hnext', hothers'⟩ := pushAll_cons_eq_ok h'
    exact ih (hstep _ _ _ _ _ _ hlayer hstart hnext hnext') hothers hothers'

theorem merged_ne_none_of_pushAll (hrest : rest ≠ []) (h : layers.pushAll rest = .ok run) :
    run.merged ≠ none := by
  cases rest with
  | nil => exact absurd rfl hrest
  | cons layer rest =>
    obtain ⟨next, hnext, hothers⟩ := pushAll_cons_eq_ok h
    refine pushAll_induction (P := fun layers => layers.merged ≠ none)
      (merged_ne_none_of_push hnext) ?_ hothers
    intro _ _ _ _ _ _ _ _ hlast
    exact merged_ne_none_of_push hlast

theorem push_eq_error {fault : MergeError} (h : layers.push layer = .error fault) :
    ∃ below ∈ layers.merged, merge (some below) layer = .error fault ∨
      fault = .rootRemoved (layers.count + 1) layer.tag := by
  rw [push] at h
  cases hmerged : layers.merged with
  | none => simp [hmerged] at h
  | some below =>
    refine ⟨below, rfl, ?_⟩
    cases hresult : merge (some below) layer with
    | error e =>
      simp only [hmerged, hresult, Except.error.injEq] at h
      exact .inl (h ▸ rfl)
    | ok result =>
      cases result with
      | some merged => simp [hmerged, hresult] at h
      | none =>
        simp only [hmerged, hresult, Except.error.injEq] at h
        exact .inr h.symm

theorem push_of_merge_eq_error {fault : MergeError} {below : Element}
    (hbelow : layers.merged = some below) (h : merge (some below) layer = .error fault) :
    layers.push layer = .error fault := by
  simp only [push, hbelow, h]

/-- A run fails with the first layer that fails. -/
theorem pushAll_eq_error_iff {fault : MergeError} : layers.pushAll rest = .error fault ↔
    ∃ before layer after middle, rest = before ++ layer :: after ∧
      layers.pushAll before = .ok middle ∧ middle.push layer = .error fault := by
  constructor
  · intro h
    induction rest generalizing layers with
    | nil => simp [pushAll] at h
    | cons layer rest ih =>
      cases hnext : layers.push layer with
      | error e =>
        rw [pushAll, hnext] at h
        exact ⟨[], layer, rest, layers, rfl, rfl, hnext.trans h⟩
      | ok next =>
        rw [pushAll_cons hnext] at h
        obtain ⟨before, failing, after, middle, rfl, hmiddle, hfault⟩ := ih h
        exact ⟨layer :: before, failing, after, middle, rfl, (pushAll_cons hnext).trans hmiddle,
          hfault⟩
  · rintro ⟨before, layer, after, middle, rfl, hmiddle, hfault⟩
    rw [pushAll_append hmiddle, pushAll, hfault]

theorem finish_eq_error {fault : MergeError} (h : layers.finish = .error fault) :
    fault = .noInput ∨ ∃ root ∈ layers.merged, root.sweep = .error fault := by
  rw [finish] at h
  cases hmerged : layers.merged with
  | none =>
    simp only [hmerged, Except.error.injEq] at h
    exact .inl h.symm
  | some root =>
    simp only [hmerged] at h
    exact .inr ⟨root, rfl, h⟩

theorem mergeLayers_eq_error {fault : MergeError} (h : mergeLayers rest = .error fault) :
    empty.pushAll rest = .error fault ∨
      ∃ run, empty.pushAll rest = .ok run ∧ run.finish = .error fault := by
  rw [mergeLayers] at h
  cases hpushed : empty.pushAll rest with
  | error e =>
    simp only [hpushed, Except.error.injEq] at h
    exact .inl (h ▸ rfl)
  | ok run =>
    simp only [hpushed] at h
    exact .inr ⟨run, rfl, h⟩

theorem finish_of_mergeLayers {tree : Element} (h : mergeLayers rest = .ok tree) :
    ∃ run, empty.pushAll rest = .ok run ∧ run.finish = .ok tree := by
  rw [mergeLayers] at h
  cases hpushed : empty.pushAll rest with
  | error e => simp [hpushed] at h
  | ok run =>
    simp only [hpushed] at h
    exact ⟨run, rfl, h⟩

end ConfigOverlay.Layers

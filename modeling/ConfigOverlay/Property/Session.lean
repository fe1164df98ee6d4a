set_option autoImplicit false

namespace ConfigOverlay

inductive PropertyError where
  | notFound (name : String)
  | circular (name : String)
  deriving DecidableEq, Repr

def PropertyError.message : PropertyError → String
  | .notFound name => "Property '" ++ name ++ "' not found"
  | .circular name => "Circular property dependency on '" ++ name ++ "'"

structure Session (σ : Type) where
  /-- The names that are being resolved, innermost first. Each stands once. -/
  inProgress : List String
  notes : List (String × String)
  host : σ

inductive Stop where
  | failed (error : PropertyError)
  /-- The bound on nested resolutions was too low. -/
  | exhausted
  deriving DecidableEq, Repr

abbrev Lookup (σ α : Type) : Type := EStateM Stop (Session σ) α

namespace Session

variable {σ : Type}

def start (host : σ) : Session σ := ⟨[], [], host⟩

def isInProgress (s : Session σ) (name : String) : Bool := s.inProgress.contains name

def enter (s : Session σ) (name : String) : Session σ :=
  { s with inProgress := name :: s.inProgress }

def leave (s : Session σ) (name : String) : Session σ :=
  { s with inProgress := s.inProgress.filter (· != name) }

theorem inProgress_leave {s : Session σ} {name : String} {marked : List String}
    (hs : s.inProgress = name :: marked) (h : name ∉ marked) :
    (s.leave name).inProgress = marked := by
  have hothers : ∀ other ∈ marked, (other != name) = true := by
    intro other hother
    simpa using fun heq : other = name => h (heq ▸ hother)
  simp only [leave, hs, List.filter_cons, bne_self_eq_false, Bool.false_eq_true, if_false]
  exact List.filter_eq_self.2 hothers

theorem leave_enter {s : Session σ} {name : String} (h : name ∉ s.inProgress) :
    (s.enter name).leave name = s := by
  have hmarks : ((s.enter name).leave name).inProgress = s.inProgress := inProgress_leave rfl h
  simp only [enter, leave] at hmarks ⊢
  rw [hmarks]

end Session

namespace Lookup

variable {σ α : Type}

def fail (error : PropertyError) : Lookup σ α := fun s => .error (.failed error) s

def enter (name : String) : Lookup σ Unit := fun s =>
  if s.isInProgress name then .error (.failed (.circular name)) s else .ok () (s.enter name)

def leave (name : String) : Lookup σ Unit := fun s => .ok () (s.leave name)

def guarded (name : String) (body : Lookup σ α) : Lookup σ α := fun s =>
  match enter name s with
  | .error e s => .error e s
  | .ok _ s =>
    match body s with
    | .ok a s => .ok a (s.leave name)
    | .error e s => .error e (s.leave name)

section

variable {name : String} {s : Session σ}

theorem guarded_of_mem (body : Lookup σ α) (h : name ∈ s.inProgress) :
    guarded name body s = .error (.failed (.circular name)) s := by
  simp [guarded, enter, Session.isInProgress, h]

theorem guarded_of_not_mem (body : Lookup σ α) (h : name ∉ s.inProgress) :
    guarded name body s =
      match body (s.enter name) with
      | .ok a t => .ok a (t.leave name)
      | .error stop t => .error stop (t.leave name) := by
  simp [guarded, enter, Session.isInProgress, h]

end

/-- Takes a name that is not found for one that has no value. -/
def orAbsent (body : Lookup σ (Option α)) : Lookup σ (Option α) := fun s =>
  match body s with
  | .error (.failed (.notFound _)) s => .ok none s
  | result => result

/-- Runs `body` with no name in progress, and then goes on with those there were. -/
def fresh (body : Lookup σ α) : Lookup σ α := fun s =>
  match body { s with inProgress := [] } with
  | .ok a s' => .ok a { s' with inProgress := s.inProgress }
  | .error e s' => .error e { s' with inProgress := s.inProgress }

end Lookup

end ConfigOverlay

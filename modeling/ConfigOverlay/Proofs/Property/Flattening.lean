import ConfigOverlay.Proofs.Property.Requests
import Mathlib.Logic.Relation

set_option autoImplicit false

namespace ConfigOverlay

variable {η σ : Type}

namespace Resolver

/-- Somewhere in the chain, a list that is a member of a list gives way to its members. -/
inductive Unnests : Resolver η → Resolver η → Prop where
  | here (before members after : List (Resolver η)) :
    Unnests (.firstOf (before ++ .firstOf members :: after))
      (.firstOf (before ++ members ++ after))
  | member {r r' : Resolver η} (before after : List (Resolver η)) (inside : Unnests r r') :
    Unnests (.firstOf (before ++ r :: after)) (.firstOf (before ++ r' :: after))
  | under {r r' : Resolver η} (lead : String) (inside : Unnests r r') :
    Unnests (.under lead r) (.under lead r')
  | expanding {r r' : Resolver η} (inside : Unnests r r') : Unnests (.expanding r) (.expanding r')
  | noted {r r' : Resolver η} (label : String) (lead : Option String) (inside : Unnests r r') :
    Unnests (.noted label lead r) (.noted label lead r')

abbrev Flattens : Resolver η → Resolver η → Prop := Relation.ReflTransGen Unnests

section

variable {around : Surroundings η σ} {guard : Guard σ} {resolve : Resolution σ}

theorem askFirst_append (members others : List (Resolver η)) :
    askFirst around guard resolve (members ++ others) =
      askFirst around guard resolve (.firstOf members :: others) := by
  have hasked (list : List (Resolver η)) (name : String) :
      mayKnow (.firstOf list) name = true := rfl
  funext name
  induction members with
  | nil => simp only [List.nil_append, askFirst, hasked, if_true, ask, pure_bind]
  | cons member members ih =>
    simp only [askFirst, hasked, if_true, ask] at ih
    simp only [List.cons_append, askFirst, hasked, if_true, ask, ih]
    cases member.mayKnow name with
    | false => rfl
    | true =>
      simp only [if_true, bind_assoc]
      refine bind_congr fun answer => ?_
      cases answer with
      | none => rfl
      | some value => rw [pure_bind]

theorem askFirst_append_congr (before : List (Resolver η)) {others others' : List (Resolver η)}
    (h : askFirst around guard resolve others = askFirst around guard resolve others') :
    askFirst around guard resolve (before ++ others) =
      askFirst around guard resolve (before ++ others') := by
  rw [askFirst_append, askFirst_append]
  funext name
  simp only [askFirst, h]

theorem lead?_of_unnests {r r' : Resolver η} (h : r.Unnests r') : r.lead? = r'.lead? := by
  induction h with
  | here | member | under | expanding => rfl
  | noted label lead _ ih =>
    cases lead with
    | none => exact ih
    | some lead => rfl

theorem askFirst_congr {r r' : Resolver η} (hlead : r.lead? = r'.lead?)
    (hask : r.ask around guard resolve = r'.ask around guard resolve)
    (after : List (Resolver η)) :
    askFirst around guard resolve (r :: after) = askFirst around guard resolve (r' :: after) := by
  funext name
  have hknow : r.mayKnow name = r'.mayKnow name := by rw [mayKnow, mayKnow, hlead]
  simp only [askFirst, hknow, hask]

theorem ask_of_unnests {r r' : Resolver η} (h : r.Unnests r') :
    r.ask around guard resolve = r'.ask around guard resolve := by
  induction h with
  | here before members after =>
    rw [ask, ask, List.append_assoc]
    exact askFirst_append_congr before (askFirst_append members after).symm
  | member before after inside ih =>
    rw [ask, ask]
    exact askFirst_append_congr before (askFirst_congr (lead?_of_unnests inside) ih after)
  | under lead _ ih =>
    funext name
    simp only [ask, ih]
  | expanding _ ih => rw [ask, ask, ih]
  | noted label lead _ ih =>
    funext name
    simp only [ask, ih]

end

theorem valueSizes_append (environment : Environment) (members others : List (Resolver η)) :
    valueSizes environment (members ++ others) =
      valueSizes environment members + valueSizes environment others := by
  induction members with
  | nil => simp [valueSizes]
  | cons member members ih => rw [List.cons_append, valueSizes, valueSizes, ih, Nat.add_assoc]

theorem valueSize_of_unnests {r r' : Resolver η} (h : r.Unnests r') (environment : Environment) :
    r.valueSize environment = r'.valueSize environment := by
  induction h with
  | here before members after =>
    simp only [valueSize, valueSizes_append, valueSizes, Nat.add_assoc]
  | member before after _ ih => simp only [valueSize, valueSizes_append, valueSizes, ih]
  | under lead _ ih => exact ih
  | expanding _ ih => exact ih
  | noted label lead _ ih => exact ih

variable {chain flat : Resolver η}

/-- Nested resolutions begin at the top of chains that are flattened in the same way. -/
theorem resolveWithin_of_unnests (h : chain.Unnests flat) (around : Surroundings η σ)
    (guard : Guard σ) (depth : Nat) :
    chain.resolveWithin around guard depth = flat.resolveWithin around guard depth := by
  induction depth with
  | zero => rfl
  | succ depth ih => rw [resolveWithin, resolveWithin, ih, ask_of_unnests h]

end Resolver

open Resolver

theorem Request.eq_of_unnests {chain flat : Resolver η} (h : chain.Unnests flat)
    (around : Surroundings η σ) (request : Request) :
    request.within around chain = request.within around flat ∧
      request.bound around chain = request.bound around flat := by
  have hresolve := resolveWithin_of_unnests h around Lookup.guarded
  have hsize := valueSize_of_unnests h around.environment
  cases request with
  | resolve name =>
    refine ⟨funext fun depth => ?_, by rw [bound, bound, hsize]⟩
    rw [within, within, hresolve]
  | expand text =>
    refine ⟨funext fun depth => ?_, by rw [bound, bound, hsize]⟩
    rw [within, within, expandWithin, expandWithin, hresolve]

/-- Flattening lists of a chain, anywhere and any number of times, changes nothing: a request ends
in the same way and leaves the same session, with the same names in progress. -/
theorem nested_lists_flatten {chain flat : Resolver η} (h : chain.Flattens flat)
    (around : Surroundings η σ) (request : Request) (s : Session σ) :
    (∀ depth, request.within around chain depth s = request.within around flat depth s) ∧
      request.run around chain s = request.run around flat s := by
  have hsame : request.within around chain = request.within around flat ∧
      request.bound around chain = request.bound around flat := by
    induction h with
    | refl => exact ⟨rfl, rfl⟩
    | tail _ hlast ih =>
      have hstep := request.eq_of_unnests hlast around
      exact ⟨ih.1.trans hstep.1, ih.2.trans hstep.2⟩
  rw [request.run_eq, request.run_eq, hsame.1, hsame.2]
  exact ⟨fun _ => rfl, rfl⟩

def portDefaults : Resolver Empty := .table (.ofPairs [("base", "80")])

def portsByService : Resolver Empty :=
  .table (.ofPairs [("web", "${base}80"), ("admin", "${oneof:${env.ADMIN},${web}1}")])

def nestedPorts : Resolver Empty :=
  .firstOf [.firstOf [.oneOf, .firstOf [portDefaults]],
    .expanding (.firstOf [.firstOf [portsByService], .environmentVariables])]

def flatPorts : Resolver Empty :=
  .firstOf [.oneOf, portDefaults, .expanding (.firstOf [portsByService, .environmentVariables])]

theorem nested_lists_flatten_ports :
    nestedPorts.Flattens flatPorts ∧
    ((Request.expand "${admin}").run (noHost .empty) nestedPorts).outcome ⟨["user"], [], ()⟩ =
      .ok (some "80801") := by
  have hflattens : nestedPorts.Flattens flatPorts := by
    refine .head (.here [] [.oneOf, .firstOf [portDefaults]] _) ?_
    refine .head (.here [.oneOf] [portDefaults] _) (.single ?_)
    exact .member [.oneOf, portDefaults] []
      (.expanding (.here [] [portsByService] [.environmentVariables]))
  have hsame := (nested_lists_flatten hflattens (noHost .empty) (.expand "${admin}")
    ⟨["user"], [], ()⟩).2
  refine ⟨hflattens, (Lookup.outcome_congr hsame).trans ?_⟩
  decide +kernel

end ConfigOverlay

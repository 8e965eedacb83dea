import Rapido.Worklist
import Mathlib.Order.WellFounded
import Mathlib.Data.Fintype.Order

-- Texts whose lines can stand for another text. Reading keeps a stack of half
-- read texts; the meaning replaces each such line by the lines it stands for.
namespace Rapido.Inclusion
variable {ε σ κ β ν : Type}

inductive Turn (κ β : Type) where
  | skip
  | act (b : β)
  | splice (inner : List κ)
deriving DecidableEq

inductive Expands (turn : κ → Turn κ β) : List κ → List β → Prop where
  | nil : Expands turn [] []
  | skip {line : κ} {lines : List κ} {out : List β} (read : turn line = .skip) (rest : Expands turn lines out) :
      Expands turn (line :: lines) out
  | act {line : κ} {lines : List κ} {b : β} {out : List β} (read : turn line = .act b) (rest : Expands turn lines out) :
      Expands turn (line :: lines) (b :: out)
  | splice {line : κ} {lines inner : List κ} {front out : List β} (read : turn line = .splice inner)
      (inside : Expands turn inner front) (rest : Expands turn lines out) : Expands turn (line :: lines) (front ++ out)

variable {turn : κ → Turn κ β}

theorem Expands.unique (first : Expands turn lines out) (second : Expands turn lines other) : other = out := by
  induction first generalizing other with
  | nil =>
    cases second
    rfl
  | skip read rest ih =>
    cases second with
    | skip again others => exact ih others
    | act again others =>
      rw [read] at again
      cases again
    | splice again inside others =>
      rw [read] at again
      cases again
  | act read rest ih =>
    cases second with
    | skip again others =>
      rw [read] at again
      cases again
    | act again others =>
      rw [read] at again
      cases again
      rw [ih others]
    | splice again inside others =>
      rw [read] at again
      cases again
  | splice read inside rest ihInside ihRest =>
    cases second with
    | skip again others =>
      rw [read] at again
      cases again
    | act again others =>
      rw [read] at again
      cases again
    | splice again within others =>
      rw [read] at again
      cases again
      rw [ihInside within,ihRest others]

theorem Expands.only (expands : Expands turn lines out) (all : List.Forall₂ (Expands turn) [lines] outs) : outs = [out] := by
  cases all with
  | cons first rest =>
    cases rest with
    | nil => rw [expands.unique first]

-- One turn of the reader: the top of the stack gives the next line.
def visit (turn : κ → Turn κ β) (handle : β → Eff ε σ Unit) (text : List κ) (rest : List (List κ)) :
    Eff ε σ (List (List κ)) :=
  match text with
  | [] => pure rest
  | line :: lines => match turn line with
    | .skip => pure (lines :: rest)
    | .act b => do
      handle b
      return lines :: rest
    | .splice inner => pure (inner :: lines :: rest)

variable {handle : β → Eff ε σ Unit} {spent : ε}

-- The number of turns depends on the text alone, not on the handler.
def turnsOf (turn : κ → Turn κ β) : List κ → List β → Nat → Prop := fun lines out n =>
  ∀ {ε σ : Type} (spent : ε) (handle : β → Eff ε σ Unit) (fuel : Nat) (rest : List (List κ)) (s : σ),
    (Worklist.loop spent (visit turn handle) (n + fuel) (lines :: rest)).run s =
      (Eff.forEach handle out >>= fun _ => Worklist.loop spent (visit turn handle) fuel rest).run s

theorem Expands.turns (expands : Expands turn lines out) : ∃ n, turnsOf turn lines out n := by
  induction expands with
  | nil => exact ⟨1,fun spent handle fuel rest s => by rw [Nat.add_comm]; rfl⟩
  | skip read _ ih =>
    obtain ⟨n,runs⟩ := ih
    refine ⟨n+1,fun spent handle fuel rest s => ?_⟩
    rw [Nat.add_right_comm,Worklist.loop]
    simp only [visit,read,Eff.pure_bind_run]
    exact runs spent handle fuel rest s
  | act read _ ih =>
    obtain ⟨n,runs⟩ := ih
    refine ⟨n+1,fun spent handle fuel rest s => ?_⟩
    rw [Nat.add_right_comm,Worklist.loop]
    simp only [visit,read,Eff.forEach,Eff.bind_run]
    cases ran : (handle _).run s with
    | mk result t =>
      cases result with
      | error failure => rfl
      | ok value =>
        have later := runs spent handle fuel rest t
        rw [Eff.bind_run] at later
        exact later
  | splice read _ _ ihInside ihRest =>
    obtain ⟨n,runsInside⟩ := ihInside
    obtain ⟨m,runsRest⟩ := ihRest
    refine ⟨n+m+1,fun spent handle fuel rest s => ?_⟩
    rw [Nat.add_right_comm,Worklist.loop]
    simp only [visit,read,Eff.pure_bind_run]
    rw [Nat.add_assoc,runsInside spent handle (m+fuel),Eff.bind_run,Eff.bind_run,Eff.forEach_append,Eff.bind_run]
    cases ran : (Eff.forEach handle _).run s with
    | mk result t =>
      cases result with
      | error failure => rfl
      | ok value =>
        have later := runsRest spent handle fuel rest t
        rw [Eff.bind_run] at later
        exact later

-- Reading one text from the start is handling what it expands to.
theorem Expands.loop (expands : Expands turn lines out) : ∃ n, ∀ fuel ≥ n, ∀ {ε σ : Type} (spent : ε)
    (handle : β → Eff ε σ Unit) (s : σ),
    (Worklist.loop spent (visit turn handle) fuel [lines]).run s = (Eff.forEach handle out).run s := by
  obtain ⟨n,runs⟩ := expands.turns
  refine ⟨n,fun fuel enough ε σ spent handle s => ?_⟩
  obtain ⟨more,rfl⟩ := Nat.exists_eq_add_of_le enough
  rw [runs spent handle more [] s,Eff.bind_run]
  cases ran : (Eff.forEach handle out).run s with
  | mk result t =>
    cases result with
    | error failure => rfl
    | ok value => cases more <;> rfl

-- A reader that comes to the end has read texts that expand, and has handled
-- what they expand to.
theorem loop_expands {texts : List (List κ)} {s t : σ}
    (ran : (Worklist.loop spent (visit turn handle) fuel texts).run s = (.ok (),t)) :
    ∃ outs, List.Forall₂ (Expands turn) texts outs ∧ (Eff.forEach handle outs.flatten).run s = (.ok (),t) := by
  induction fuel generalizing texts s with
  | zero =>
    cases texts with
    | nil => exact ⟨[],.nil,ran⟩
    | cons text rest => cases ran
  | succ fuel ih =>
    cases texts with
    | nil => exact ⟨[],.nil,ran⟩
    | cons text rest =>
      cases text with
      | nil =>
        obtain ⟨outs,expand,handled⟩ := ih ran
        exact ⟨[] :: outs,.cons .nil expand,handled⟩
      | cons line lines =>
        rw [Worklist.loop] at ran
        cases read : turn line with
        | skip =>
          simp only [visit,read,Eff.pure_bind_run] at ran
          obtain ⟨outs,expansions,handled⟩ := ih ran
          cases expansions with
          | cons expands expand => exact ⟨_,.cons (.skip read expands) expand,handled⟩
        | act b =>
          simp only [visit,read] at ran
          obtain ⟨stack,u,visited,more⟩ := Eff.bind_ok.mp ran
          obtain ⟨done,v,acted,left⟩ := Eff.bind_ok.mp visited
          cases left
          obtain ⟨outs,expansions,handled⟩ := ih more
          cases expansions with
          | cons expands expand => exact ⟨_,.cons (.act read expands) expand,(Eff.bind_run_ok acted).trans handled⟩
        | splice inner =>
          simp only [visit,read,Eff.pure_bind_run] at ran
          obtain ⟨outs,expansions,handled⟩ := ih ran
          cases expansions with
          | cons inside others => cases others with
            | cons expands expand =>
              refine ⟨_,.cons (.splice read inside expands) expand,?_⟩
              rw [List.flatten_cons,List.append_assoc]
              exact handled

theorem expands_lines (lines : List κ)
    (inner : ∀ line ∈ lines, ∀ text, turn line = .splice text → ∃ out, Expands turn text out) :
    ∃ out, Expands turn lines out := by
  induction lines with
  | nil => exact ⟨[],.nil⟩
  | cons line lines ih =>
    obtain ⟨out,rest⟩ := ih fun other inside => inner other (List.mem_cons_of_mem _ inside)
    cases read : turn line with
    | skip => exact ⟨out,.skip read rest⟩
    | act b => exact ⟨b :: out,.act read rest⟩
    | splice text =>
      obtain ⟨front,inside⟩ := inner line List.mem_cons_self text read
      exact ⟨front ++ out,.splice read inside rest⟩

-- Finitely many texts that do not include each other in a circle all expand.
theorem expands_acyclic {text : ν → List κ} {names : Set ν} (finite : names.Finite) {opens : ν → ν → Prop}
    (found : ∀ a ∈ names, ∀ line ∈ text a, ∀ inner, turn line = .splice inner → ∃ b, opens a b ∧ text b = inner)
    (closed : ∀ a ∈ names, ∀ b, opens a b → b ∈ names) (acyclic : ∀ a ∈ names, ¬Relation.TransGen opens a a)
    (start : a ∈ names) : ∃ out, Expands turn (text a) out := by
  have : Finite names := finite
  let below : names → names → Prop := fun b a => Relation.TransGen opens a.1 b.1
  have irrefl : Std.Irrefl below := ⟨fun a cycle => acyclic a.1 a.2 cycle⟩
  have trans : IsTrans names below := ⟨fun _ _ _ first second => second.trans first⟩
  have founded : WellFounded below := Finite.wellFounded_of_trans_of_irrefl below
  suffices ∀ a : names, ∃ out, Expands turn (text a.1) out from this ⟨a,start⟩
  intro a
  induction a using founded.induction with
  | _ a ih =>
    refine expands_lines (text a.1) fun line inside inner read => ?_
    obtain ⟨b,edge,same⟩ := found a.1 a.2 line inside inner read
    rw [← same]
    exact ih ⟨b,closed a.1 a.2 b edge⟩ (.single edge)

end Rapido.Inclusion

import Rapido.Effect
import Mathlib.Data.List.Induction

-- Programs that act on their surroundings, whatever these answer.
namespace Rapido.Journal
open Eff

variable {α β γ δ ε : Type} {answer : List (α × β) → α → β} {needs : α → List (α × β) → Prop} {ends : ε → List (α × β) → Prop} {know : List (α × β) → Prop}

-- What was done and what came of it, in order.
abbrev Log (α β : Type) := List (α × β)

-- The answer may depend on everything that was done before.
def perform (answer : Log α β → α → β) (a : α) : Eff ε (Log α β) β := do
  let b ← .read (answer · a)
  .update (· ++ [(a,b)])
  return b

theorem perform_run (answer : Log α β → α → β) (a : α) (log : Log α β) :
    (perform answer a : Eff ε (Log α β) β).run log = (.ok (answer log a),log ++ [(a,answer log a)]) := rfl

-- Nothing was done before its time, and the answers are those that were given.
def Ordered (answer : Log α β → α → β) (needs : α → Log α β → Prop) (log : Log α β) : Prop :=
  ∀ front a b back, log = front ++ (a,b) :: back → b = answer front a ∧ needs a front

theorem Ordered.nil : Ordered answer needs [] := by
  intro front a b back split
  cases front <;> cases split

theorem Ordered.snoc (ordered : Ordered answer needs log) (met : needs a log) : Ordered answer needs (log ++ [(a,answer log a)]) := by
  intro front other reply back split
  cases back using List.reverseRecOn with
  | nil =>
    obtain ⟨rfl,last⟩ := List.append_inj' split rfl
    cases last
    exact ⟨rfl,met⟩
  | append_singleton back last _ =>
    rw [← List.cons_append,← List.append_assoc] at split
    exact ordered front other reply back (List.append_inj' split rfl).1

theorem Ordered.answered (ordered : Ordered answer needs log) (inside : (a,b) ∈ log) : ∃ front, b = answer front a := by
  obtain ⟨front,back,split⟩ := List.append_of_mem inside
  exact ⟨front,(ordered front a b back split).1⟩

theorem Ordered.front (ordered : Ordered answer needs (log ++ more)) : Ordered answer needs log := by
  intro front a b back split
  refine ordered front a b (back ++ more) ?_
  rw [split,List.append_assoc]
  rfl

-- A fact that nothing done later takes back.
def Lasting (know : Log α β → Prop) : Prop := ∀ log entry, know log → know (log ++ [entry])

namespace Lasting
variable {other : List (α × β) → Prop}

theorem mem (entry : α × β) : Lasting fun log => entry ∈ log := fun _ _ inside => List.mem_append_left _ inside
theorem const (fact : Prop) : Lasting fun _ : Log α β => fact := fun _ _ holds => holds
theorem and (first : Lasting know) (second : Lasting other) : Lasting fun log => know log ∧ other log :=
  fun log entry both => ⟨first log entry both.1,second log entry both.2⟩
theorem or (first : Lasting know) (second : Lasting other) : Lasting fun log => know log ∨ other log :=
  fun log entry either => either.imp (first log entry) (second log entry)
theorem some {each : δ → Log α β → Prop} (lasting : ∀ d, Lasting (each d)) : Lasting fun log => ∃ d, each d log :=
  fun log entry ⟨d,holds⟩ => ⟨d,lasting d log entry holds⟩
theorem every {each : δ → Log α β → Prop} (lasting : ∀ d, Lasting (each d)) : Lasting fun log => ∀ d, each d log :=
  fun log entry holds d => lasting d log entry (holds d)
theorem imp {fact : Prop} (lasting : Lasting know) : Lasting fun log => fact → know log :=
  fun log entry holds given => lasting log entry (holds given)

end Lasting

-- Whoever starts from what is known keeps the order and learns more, and where a
-- run stops it is known how it ends.
abbrev Obeys (answer : Log α β → α → β) (needs : α → Log α β → Prop) (ends : ε → Log α β → Prop) (know : Log α β → Prop) (act : Eff ε (Log α β) γ)
    (gains : γ → Log α β → Prop) : Prop :=
  Triple (fun log => Ordered answer needs log ∧ know log) act (fun value log => Ordered answer needs log ∧ gains value log)
    fun failure log => Ordered answer needs log ∧ ends failure log

namespace Obeys
variable {act : Eff ε (Log α β) γ} {next : γ → Eff ε (Log α β) δ} {gains : γ → Log α β → Prop}

theorem perform {gains : β → Log α β → Prop} (met : ∀ log, know log → needs a log)
    (learnt : ∀ log b, know log → gains b (log ++ [(a,b)])) : Obeys answer needs ends know (Journal.perform answer a) gains where
  ok := by
    rintro log _ _ ⟨ordered,known⟩ ⟨⟩
    exact ⟨ordered.snoc (met log known),learnt log _ known⟩
  error := by rintro log _ _ _ ⟨⟩

theorem pure (learnt : ∀ log, know log → gains value log) : Obeys answer needs ends know (Pure.pure value) gains :=
  Triple.pure fun log known => ⟨known.1,learnt log known.2⟩

theorem fail {failure : ε} (ended : ∀ log, know log → ends failure log) : Obeys answer needs ends know (Eff.fail failure) gains :=
  Triple.fail fun log known => ⟨known.1,ended log known.2⟩

theorem bind {after : δ → Log α β → Prop} (first : Obeys answer needs ends know act gains)
    (second : ∀ value, Obeys answer needs ends (gains value) (next value) after) : Obeys answer needs ends know (act >>= next) after :=
  Triple.bind first second

theorem pure_bind {after : δ → Log α β → Prop} (rest : Obeys answer needs ends know (next value) after) :
    Obeys answer needs ends know (Pure.pure value >>= next) after := rest

theorem runIf {cond : Prop} [Decidable cond] {act : Eff ε (Log α β) Unit} {gains : Unit → Log α β → Prop}
    (yes : cond → Obeys answer needs ends know act gains) (no : ¬cond → ∀ log, know log → gains () log) :
    Obeys answer needs ends know (.runIf cond act) gains :=
  Triple.runIf yes fun unmet log known => ⟨known.1,no unmet log known.2⟩

theorem weaken {before : Log α β → Prop} {after : γ → Log α β → Prop} (strong : Obeys answer needs ends know act gains)
    (more : ∀ log, before log → know log) (less : ∀ value log, gains value log → after value log) : Obeys answer needs ends before act after :=
  Triple.weaken strong (fun log known => ⟨known.1,more log known.2⟩) fun value log gained => ⟨gained.1,less value log gained.2⟩

end Obeys
end Rapido.Journal

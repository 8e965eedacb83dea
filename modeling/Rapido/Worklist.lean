import Rapido.Effect

-- while let Some(item) = items.pop() { .. }: the head of the list is the top
-- of the stack, and a visit returns the stack it leaves.
namespace Rapido.Worklist
variable {ε σ α : Type} {spent : ε} {visit : α → List α → Eff ε σ (List α)} {items last : List α} {s t u : σ}

def loop (spent : ε) (visit : α → List α → Eff ε σ (List α)) : Nat → List α → Eff ε σ Unit
  | _,[] => pure ()
  | 0,_ :: _ => .fail spent
  | fuel+1,item :: rest => do
    let items ← visit item rest
    loop spent visit fuel items

-- Some visits in a row, none of which failed.
inductive Runs (visit : α → List α → Eff ε σ (List α)) : List α → σ → List α → σ → Prop where
  | refl {items : List α} {s : σ} : Runs visit items s items s
  | step {item : α} {rest items last : List α} {s t u : σ} (ran : (visit item rest).run s = (.ok items,t))
      (more : Runs visit items t last u) : Runs visit (item :: rest) s last u

theorem loop_runs (ran : (loop spent visit fuel items).run s = (.ok (),t)) : Runs visit items s [] t := by
  induction fuel generalizing items s with
  | zero =>
    cases items with
    | nil => cases ran; exact .refl
    | cons item rest => cases ran
  | succ fuel ih =>
    cases items with
    | nil => cases ran; exact .refl
    | cons item rest =>
      obtain ⟨items,middle,visited,more⟩ := Eff.bind_ok.mp ran
      exact .step visited (ih more)

-- A loop whose visits use up a finite amount of work ends by itself: more fuel
-- changes nothing.
theorem loop_enough {work : List α → Nat → Prop} (busy : ∀ item rest n, work (item :: rest) n → 0 < n)
    (less : ∀ item rest n s items t, work (item :: rest) n → (visit item rest).run s = (.ok items,t) → ∃ m < n, work items m)
    (left : work items n) (first : n ≤ a) (second : n ≤ b) (s : σ) :
    (loop spent visit a items).run s = (loop spent visit b items).run s := by
  induction n using Nat.strongRecOn generalizing items a b s with
  | ind n ih =>
    cases items with
    | nil => cases a <;> cases b <;> rfl
    | cons item rest =>
      have positive := busy item rest n left
      obtain ⟨a,rfl⟩ := Nat.exists_eq_succ_of_ne_zero (show a ≠ 0 by omega)
      obtain ⟨b,rfl⟩ := Nat.exists_eq_succ_of_ne_zero (show b ≠ 0 by omega)
      unfold loop
      rw [Eff.bind_run,Eff.bind_run]
      cases ran : (visit item rest).run s with
      | mk result t =>
        cases result with
        | error failure => rfl
        | ok items =>
          obtain ⟨m,fewer,left⟩ := less item rest n s items t left ran
          exact ih m fewer left (by omega) (by omega) t

-- The loop comes to an end, by itself or through a failure.
inductive Halts (visit : α → List α → Eff ε σ (List α)) : List α → σ → Prop where
  | done {s : σ} : Halts visit [] s
  | failed {item : α} {rest : List α} {s t : σ} {failure : ε} (ran : (visit item rest).run s = (.error failure,t)) :
      Halts visit (item :: rest) s
  | step {item : α} {rest items : List α} {s t : σ} (ran : (visit item rest).run s = (.ok items,t))
      (more : Halts visit items t) : Halts visit (item :: rest) s

theorem Halts.enough (halts : Halts visit items s) :
    ∃ enough outcome, ∀ spent fuel, enough ≤ fuel → (loop spent visit fuel items).run s = outcome := by
  induction halts with
  | @done s =>
    refine ⟨0,(.ok (),s),fun spent fuel _ => ?_⟩
    cases fuel <;> rfl
  | @failed item rest s t failure ran =>
    refine ⟨1,(.error failure,t),fun spent fuel enough => ?_⟩
    obtain ⟨fuel,rfl⟩ := Nat.exists_eq_succ_of_ne_zero (show fuel ≠ 0 by omega)
    exact Eff.bind_run_error ran
  | step ran more ih =>
    obtain ⟨enough,outcome,ends⟩ := ih
    refine ⟨enough + 1,outcome,fun spent fuel large => ?_⟩
    obtain ⟨fuel,rfl⟩ := Nat.exists_eq_succ_of_ne_zero (show fuel ≠ 0 by omega)
    exact (Eff.bind_run_ok ran).trans (ends spent fuel (by omega))

-- Each visit lowers the rank of the state, or at least the total of the stack.
theorem halts_ranked {rank : σ → Nat} {total : List α → Nat}
    (less : ∀ item rest s items t, (visit item rest).run s = (.ok items,t) →
      rank t < rank s ∨ (rank t ≤ rank s ∧ total items < total (item :: rest)))
    (items : List α) (s : σ) : Halts visit items s := by
  induction bound : rank s using Nat.strongRecOn generalizing items s with
  | ind r below =>
    induction size : total items using Nat.strongRecOn generalizing items s with
    | ind n smaller =>
      cases items with
      | nil => exact .done
      | cons item rest =>
        cases ran : (visit item rest).run s with
        | mk result t =>
          cases result with
          | error failure => exact .failed ran
          | ok items =>
            refine .step ran ?_
            rcases less item rest s items t ran with lower | ⟨same,lighter⟩
            · exact below _ (bound ▸ lower) items t rfl
            · rcases Nat.lt_or_eq_of_le same with lower | equal
              · exact below _ (bound ▸ lower) items t rfl
              · exact smaller _ (size ▸ lighter) items t (equal.trans bound) rfl

-- How many of the things that can ever be seen have not been seen yet.
section remaining
variable {β : Type} [DecidableEq β] {known seen later : List β} {b : β}

def remaining (known seen : List β) : Nat := known.countP fun b => b ∉ seen

theorem remaining_mono (grown : ∀ b ∈ seen, b ∈ later) : remaining known later ≤ remaining known seen := by
  apply List.countP_mono_left
  intro b _ new
  have fresh : b ∉ later := of_decide_eq_true new
  exact decide_eq_true fun old => fresh (grown b old)

theorem remaining_less (grown : ∀ b ∈ seen, b ∈ later) (inside : b ∈ known) (fresh : b ∉ seen) (now : b ∈ later) :
    remaining known later < remaining known seen := by
  obtain ⟨front,back,rfl⟩ := List.append_of_mem inside
  have before : remaining front later ≤ remaining front seen := remaining_mono grown
  have after : remaining back later ≤ remaining back seen := remaining_mono grown
  simp only [remaining,List.countP_append,List.countP_cons,fresh,now,not_true_eq_false,not_false_eq_true,decide_true,
    decide_false,if_true,Bool.false_eq_true,if_false] at before after ⊢
  omega

end remaining

theorem loop_triple (inv : List α → σ → Prop) {fails : ε → σ → Prop} (spending : ∀ items s, inv items s → fails spent s)
    (each : ∀ item rest, Eff.Triple (inv (item :: rest)) (visit item rest) inv fails) (fuel : Nat) (items : List α) :
    Eff.Triple (inv items) (loop spent visit fuel items) (fun _ => inv []) fails := by
  induction fuel generalizing items with
  | zero =>
    cases items with
    | nil => exact .pure fun _ before => before
    | cons item rest => exact .fail (spending (item :: rest))
  | succ fuel ih =>
    cases items with
    | nil => exact .pure fun _ before => before
    | cons item rest => exact .bind (each item rest) ih

theorem loop_keeps {bad : ε → Prop} {inv : σ → Prop} (each : ∀ item rest, Eff.Keeps bad inv (visit item rest))
    (fuel : Nat) (items : List α) : Eff.Keeps bad inv (loop spent visit fuel items) :=
  loop_triple (fun _ => inv) (fun _ _ holds _ => holds) each fuel items

-- A run is determined by its start: one that ends passes through every
-- configuration that can be reached.
theorem Runs.rest (first : Runs visit items s last t) (whole : Runs visit items s [] u) : Runs visit last t [] u := by
  induction first with
  | refl => exact whole
  | step ran more ih =>
    cases whole with
    | step again others =>
      rw [ran] at again
      cases again
      exact ih others

theorem Runs.invariant (inv : List α → σ → Prop)
    (keeps : ∀ item rest s items t, inv (item :: rest) s → (visit item rest).run s = (.ok items,t) → inv items t)
    (runs : Runs visit items s last t) (start : inv items s) : inv last t := by
  induction runs with
  | refl => exact start
  | step ran more ih => exact ih (keeps _ _ _ _ _ start ran)

-- Every configuration from which a visit is made satisfies the condition.
def Meets (visit : α → List α → Eff ε σ (List α)) (cond : α → List α → σ → Prop) (items : List α) (s : σ) : Prop :=
  ∀ item rest t, Runs visit items s (item :: rest) t → cond item rest t

theorem meets_true : Meets visit (fun _ _ _ => True) items s := fun _ _ _ _ => trivial

theorem meets_nil {cond : α → List α → σ → Prop} : Meets visit cond [] s := by
  intro item rest t runs
  cases runs

theorem meets_cons {cond : α → List α → σ → Prop} (here : cond item rest s)
    (next : ∀ items t, (visit item rest).run s = (.ok items,t) → Meets visit cond items t) :
    Meets visit cond (item :: rest) s := by
  intro other left t runs
  cases runs with
  | refl => exact here
  | step ran more => exact next _ _ ran other left t more

theorem Runs.invariant_meeting {cond : α → List α → σ → Prop} (inv : List α → σ → Prop)
    (keeps : ∀ item rest s items t, inv (item :: rest) s → cond item rest s →
      (visit item rest).run s = (.ok items,t) → inv items t)
    (runs : Runs visit items s last t) (meets : Meets visit cond items s) (start : inv items s) : inv last t := by
  induction runs with
  | refl => exact start
  | step ran more ih =>
    refine ih (fun item rest t later => meets item rest t (.step ran later)) ?_
    exact keeps _ _ _ _ _ start (meets _ _ _ .refl) ran

-- What each visit keeps whose configuration satisfies the condition, the loop
-- keeps, also when it fails.
theorem loop_meeting {cond : α → List α → σ → Prop} (inv : List α → σ → Prop) {fails : ε → σ → Prop}
    (spending : ∀ items s, inv items s → fails spent s)
    (each : ∀ item rest s, inv (item :: rest) s → cond item rest s → Eff.Triple (fun t => t = s) (visit item rest) inv fails)
    (fuel : Nat) (items : List α) :
    Eff.Triple (fun s => inv items s ∧ Meets visit cond items s) (loop spent visit fuel items) (fun _ => inv []) fails := by
  induction fuel generalizing items with
  | zero =>
    cases items with
    | nil => exact .pure fun _ before => before.1
    | cons item rest => exact .fail fun s before => spending _ s before.1
  | succ fuel ih =>
    cases items with
    | nil => exact .pure fun _ before => before.1
    | cons item rest =>
      refine .given fun s ⟨before,meets⟩ => ?_
      have here := each item rest s before (meets item rest s .refl)
      refine .bind ⟨?_,here.error⟩ ih
      rintro _ items t rfl ran
      exact ⟨here.ok _ items t rfl ran,fun other left u later => meets other left u (.step ran later)⟩

-- What the items reach is done in the end, if a visit loses nothing that its
-- item reaches.
section coverage
variable {β : Type} {reach : α → β → Prop} {done : σ → β → Prop} {cond : α → List α → σ → Prop}

def Covered (reach : α → β → Prop) (done : σ → β → Prop) (items : List α) (s : σ) (goal : β) : Prop :=
  done s goal ∨ ∃ item ∈ items, reach item goal

theorem Runs.covered (keeps : ∀ item rest s items t goal, cond item rest s → (visit item rest).run s = (.ok items,t) →
      Covered reach done (item :: rest) s goal → Covered reach done items t goal)
    (runs : Runs visit items s [] t) (meets : Meets visit cond items s) (start : Covered reach done items s goal) :
    done t goal := by
  have final := runs.invariant_meeting (fun items s => Covered reach done items s goal)
    (fun item rest s items t covered holds ran => keeps item rest s items t goal holds ran covered) meets start
  rcases final with finished | ⟨item,none,_⟩
  · exact finished
  · cases none

end coverage

end Rapido.Worklist

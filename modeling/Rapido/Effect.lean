import Mathlib.Data.List.Basic

namespace Rapido

theorem except_bind_ok {first : Except ε α} {next : α → Except ε β} :
    first >>= next = .ok result ↔ ∃ value, first = .ok value ∧ next value = .ok result := by
  cases first with
  | error failure => exact ⟨nofun,nofun⟩
  | ok value =>
    constructor
    · exact fun ran => ⟨value,rfl,ran⟩
    · rintro ⟨_,⟨⟩,ran⟩
      exact ran

-- A fallible computation over a state that keeps the state on failure, as a
-- function that returns early through `?` leaves its &mut arguments behind.
structure Eff (ε σ α : Type) where
  run : σ → Except ε α × σ

namespace Eff

instance : Monad (Eff ε σ) where
  pure value := ⟨fun s => (.ok value,s)⟩
  bind first next := ⟨fun s => match first.run s with
    | (.ok value,t) => (next value).run t
    | (.error failure,t) => (.error failure,t)⟩

def fail (failure : ε) : Eff ε σ α := ⟨fun s => (.error failure,s)⟩
def read (view : σ → α) : Eff ε σ α := ⟨fun s => (.ok (view s),s)⟩
def update (change : σ → σ) : Eff ε σ Unit := ⟨fun s => (.ok (),change s)⟩
def ofExcept : Except ε α → Eff ε σ α
  | .ok value => pure value
  | .error failure => fail failure

-- A call whose Err is looked at instead of being returned.
def attempt (act : Eff ε σ α) : Eff ε σ (Except ε α) := ⟨fun s => (.ok (act.run s).1,(act.run s).2)⟩

-- An `if` without else.
def runIf (cond : Prop) [Decidable cond] (act : Eff ε σ Unit) : Eff ε σ Unit := if cond then act else pure ()

-- A `for` over a list whose body may fail.
def forEach (act : α → Eff ε σ Unit) : List α → Eff ε σ Unit
  | [] => pure ()
  | a :: rest => do
    act a
    forEach act rest

@[simp] theorem pure_run (value : α) (s : σ) : (pure value : Eff ε σ α).run s = (.ok value,s) := rfl
@[simp] theorem fail_run (failure : ε) (s : σ) : (fail failure : Eff ε σ α).run s = (.error failure,s) := rfl
@[simp] theorem read_run (view : σ → α) (s : σ) : (read view : Eff ε σ α).run s = (.ok (view s),s) := rfl
@[simp] theorem update_run (change : σ → σ) (s : σ) : (update change : Eff ε σ Unit).run s = (.ok (),change s) := rfl
@[simp] theorem attempt_run (act : Eff ε σ α) (s : σ) : (attempt act).run s = (.ok (act.run s).1,(act.run s).2) := rfl
@[simp] theorem ofExcept_ok (value : α) : (ofExcept (.ok value) : Eff ε σ α) = pure value := rfl
@[simp] theorem ofExcept_error (failure : ε) : (ofExcept (.error failure) : Eff ε σ α) = fail failure := rfl

theorem bind_run (first : Eff ε σ α) (next : α → Eff ε σ β) (s : σ) :
    (first >>= next).run s = match first.run s with
      | (.ok value,t) => (next value).run t
      | (.error failure,t) => (.error failure,t) := rfl

@[simp] theorem pure_bind_run (value : α) (next : α → Eff ε σ β) (s : σ) :
    (pure value >>= next).run s = (next value).run s := rfl
@[simp] theorem fail_bind_run (failure : ε) (next : α → Eff ε σ β) (s : σ) :
    (fail failure >>= next).run s = (.error failure,s) := rfl
@[simp] theorem read_bind_run (view : σ → α) (next : α → Eff ε σ β) (s : σ) :
    (read view >>= next).run s = (next (view s)).run s := rfl
@[simp] theorem attempt_bind_run (act : Eff ε σ α) (next : Except ε α → Eff ε σ β) (s : σ) :
    (attempt act >>= next).run s = (next (act.run s).1).run (act.run s).2 := rfl
@[simp] theorem update_bind_run (change : σ → σ) (next : Unit → Eff ε σ β) (s : σ) :
    (update change >>= next).run s = (next ()).run (change s) := rfl

theorem bind_run_ok {first : Eff ε σ α} {next : α → Eff ε σ β} (ran : first.run s = (.ok value,t)) :
    (first >>= next).run s = (next value).run t := by rw [bind_run,ran]

theorem bind_run_error {first : Eff ε σ α} {next : α → Eff ε σ β} {failure : ε} (ran : first.run s = (.error failure,t)) :
    (first >>= next).run s = (.error failure,t) := by rw [bind_run,ran]

theorem bind_assoc (first : Eff ε σ α) (next : α → Eff ε σ β) (last : β → Eff ε σ γ) :
    (first >>= next) >>= last = first >>= fun value => next value >>= last := by
  refine congrArg Eff.mk (funext fun s => ?_)
  dsimp only [bind]
  cases first.run s with
  | mk result t =>
    cases result with
    | error failure => rfl
    | ok value => rfl

theorem run_ok {act : Eff ε σ α} (succeeds : (act.run s).1 = .ok value) : act.run s = (.ok value,(act.run s).2) := by
  rw [← succeeds]

theorem run_value {act : Eff ε σ α} (ran : act.run s = (.ok value,t)) (evaluated : (act.run s).1 = .ok other) :
    value = other := by
  rw [ran] at evaluated
  exact Except.ok.inj evaluated

theorem run_state {act : Eff ε σ α} (ran : act.run s = (.ok value,t)) : t = (act.run s).2 := by rw [ran]

theorem isOk_value {outcome : Except ε α} (succeeds : outcome.isOk = true) : ∃ value, outcome = .ok value := by
  cases outcome with
  | error failure => cases succeeds
  | ok value => exact ⟨value,rfl⟩

-- The one inversion every later success proof starts from.
theorem bind_ok {first : Eff ε σ α} {next : α → Eff ε σ β} :
    (first >>= next).run s = (.ok result,after) ↔
      ∃ value middle, first.run s = (.ok value,middle) ∧ (next value).run middle = (.ok result,after) := by
  rw [bind_run]
  constructor
  · intro ran
    split at ran
    · rename_i value middle started
      exact ⟨value,middle,started,ran⟩
    · cases ran
  · rintro ⟨value,middle,started,ran⟩
    rw [started]
    exact ran

theorem ofExcept_run_ok {outcome : Except ε α} (ran : (ofExcept outcome : Eff ε σ α).run s = (.ok value,t)) :
    outcome = .ok value ∧ s = t := by
  cases outcome with
  | ok result =>
    cases ran
    exact ⟨rfl,rfl⟩
  | error failure => cases ran

theorem forEach_append (act : α → Eff ε σ Unit) (front back : List α) (s : σ) :
    (forEach act (front ++ back)).run s = (forEach act front >>= fun _ => forEach act back).run s := by
  induction front generalizing s with
  | nil => rfl
  | cons a rest ih =>
    simp only [List.cons_append,forEach,bind_run]
    cases ran : (act a).run s with
    | mk result t =>
      cases result with
      | error failure => rfl
      | ok value => exact ih t

theorem forEach_map (act : β → Eff ε σ Unit) (f : α → β) (list : List α) :
    forEach act (list.map f) = forEach (fun a => act (f a)) list := by
  induction list with
  | nil => rfl
  | cons a rest ih => simp only [List.map_cons,forEach,ih]

theorem forEach_keeps_ok {act : α → Eff ε σ Unit} {inv : σ → Prop} {list : List α}
    (kept : ∀ b s t, inv s → (act b).run s = (.ok (),t) → inv t) (start : inv s)
    (ran : (forEach act list).run s = (.ok (),t)) : inv t := by
  induction list generalizing s with
  | nil =>
    cases ran
    exact start
  | cons first rest ih =>
    obtain ⟨_,middle,here,later⟩ := bind_ok.mp ran
    exact ih (kept first s middle start here) later

-- Each turn of a loop that finds its condition does its work, and no other turn
-- undoes it.
theorem forEach_meeting {act : α → Eff ε σ Unit} {inv : σ → Prop} {cond done : α → σ → Prop} {list : List α}
    (each : ∀ a s t, inv s → cond a s → (act a).run s = (.ok (),t) → inv t ∧ done a t)
    (kept : ∀ a b s t, done a s → (act b).run s = (.ok (),t) → done a t)
    (meets : ∀ front a back u, list = front ++ a :: back → (forEach act front).run s = (.ok (),u) → cond a u)
    (ran : (forEach act list).run s = (.ok (),t)) (start : inv s) : inv t ∧ ∀ a ∈ list, done a t := by
  induction list generalizing s with
  | nil =>
    cases ran
    exact ⟨start,fun a none => absurd none List.not_mem_nil⟩
  | cons first rest ih =>
    obtain ⟨_,middle,here,later⟩ := bind_ok.mp ran
    obtain ⟨stays,worked⟩ := each first s middle start (meets [] first rest s rfl rfl) here
    have after : ∀ front a back u, rest = front ++ a :: back → (forEach act front).run middle = (.ok (),u) → cond a u := by
      intro front a back u split reached
      exact meets (first :: front) a back u (by rw [split]; rfl) (bind_ok.mpr ⟨(),middle,here,reached⟩)
    obtain ⟨holds,all⟩ := ih after later stays
    refine ⟨holds,fun a inside => ?_⟩
    rcases List.mem_cons.mp inside with rfl | other
    · exact forEach_keeps_ok (kept a) worked later
    · exact all a other

-- What holds of the state before a computation, of its result and the state
-- after it, and of its failure and the state that is left behind.
structure Triple (pre : σ → Prop) (act : Eff ε σ α) (post : α → σ → Prop) (fails : ε → σ → Prop) : Prop where
  ok : ∀ s value t, pre s → act.run s = (.ok value,t) → post value t
  error : ∀ s failure t, pre s → act.run s = (.error failure,t) → fails failure t

-- Failures end the run, so nothing is said about them.
abbrev Ensures (pre : σ → Prop) (act : Eff ε σ α) (post : α → σ → Prop) : Prop := Triple pre act post fun _ _ => True

-- An invariant that also survives a failure, unless the failure is bad.
abbrev Keeps (bad : ε → Prop) (inv : σ → Prop) (act : Eff ε σ α) : Prop :=
  Triple inv act (fun _ => inv) fun failure t => ¬bad failure → inv t

namespace Triple
variable {pre mid : σ → Prop} {act : Eff ε σ α} {next : α → Eff ε σ β} {fails : ε → σ → Prop}

theorem pure {post : α → σ → Prop} (holds : ∀ s, pre s → post value s) :
    Triple pre (Pure.pure value : Eff ε σ α) post fails where
  ok := by rintro s _ t before ⟨⟩; exact holds s before
  error := by rintro s _ t before ⟨⟩

theorem fail {failure : ε} {post : α → σ → Prop} (holds : ∀ s, pre s → fails failure s) :
    Triple pre (.fail failure : Eff ε σ α) post fails where
  ok := by rintro s _ t before ⟨⟩
  error := by rintro s _ t before ⟨⟩; exact holds s before

theorem read {post : α → σ → Prop} (holds : ∀ s, pre s → post (view s) s) :
    Triple pre (.read view : Eff ε σ α) post fails where
  ok := by rintro s _ t before ⟨⟩; exact holds s before
  error := by rintro s _ t before ⟨⟩

theorem update {post : Unit → σ → Prop} (holds : ∀ s, pre s → post () (change s)) :
    Triple pre (.update change : Eff ε σ Unit) post fails where
  ok := by rintro s _ t before ⟨⟩; exact holds s before
  error := by rintro s _ t before ⟨⟩

theorem ofExcept {outcome : Except ε α} {post : α → σ → Prop}
    (holds : ∀ value, outcome = .ok value → ∀ s, pre s → post value s)
    (failed : ∀ failure, outcome = .error failure → ∀ s, pre s → fails failure s) :
    Triple pre (.ofExcept outcome) post fails := by
  cases outcome with
  | ok value => exact .pure (holds value rfl)
  | error failure => exact .fail (failed failure rfl)

theorem bind {mid : α → σ → Prop} {post : β → σ → Prop} (first : Triple pre act mid fails)
    (second : ∀ value, Triple (mid value) (next value) post fails) : Triple pre (act >>= next) post fails where
  ok := by
    intro s result t before ran
    obtain ⟨value,middle,started,finished⟩ := bind_ok.mp ran
    exact (second value).ok middle result t (first.ok s value middle before started) finished
  error := by
    intro s failure t before ran
    rw [bind_run] at ran
    cases started : act.run s with
    | mk result middle =>
      rw [started] at ran
      cases result with
      | ok value => exact (second value).error middle failure t (first.ok s value middle before started) ran
      | error stopped =>
        cases ran
        exact first.error s _ _ before started

theorem read_bind {post : β → σ → Prop} (each : ∀ value, Triple (fun s => pre s ∧ view s = value) (next value) post fails) :
    Triple pre (.read view >>= next) post fails :=
  .bind (.read fun _ before => ⟨before,rfl⟩) each

theorem ofExcept_bind {outcome : Except ε α} {post : β → σ → Prop}
    (each : ∀ value, outcome = .ok value → Triple pre (next value) post fails)
    (failed : ∀ failure, outcome = .error failure → ∀ s, pre s → fails failure s) :
    Triple pre (.ofExcept outcome >>= next) post fails := by
  cases outcome with
  | ok value =>
    have run := each value rfl
    exact ⟨run.ok,run.error⟩
  | error failure =>
    have stop : Triple pre (.fail failure : Eff ε σ α) (fun _ _ => False) fails := .fail (failed failure rfl)
    exact .bind stop fun _ => ⟨nofun,nofun⟩

theorem runIf {cond : Prop} [Decidable cond] {act : Eff ε σ Unit} {post : Unit → σ → Prop}
    (yes : cond → Triple pre act post fails) (no : ¬cond → ∀ s, pre s → post () s) :
    Triple pre (.runIf cond act) post fails := by
  unfold Eff.runIf
  split
  · rename_i h
    exact yes h
  · rename_i h
    exact .pure (no h)

theorem forEach {act : α → Eff ε σ Unit} {list : List α} (each : ∀ a ∈ list, Triple pre (act a) (fun _ => pre) fails) :
    Triple pre (.forEach act list) (fun _ => pre) fails := by
  induction list with
  | nil => exact .pure fun _ before => before
  | cons a rest ih =>
    exact .bind (each a List.mem_cons_self) fun _ => ih fun other inside => each other (List.mem_cons_of_mem _ inside)

theorem weaken {post last : α → σ → Prop} (strong : Triple mid act post fails) (before : ∀ s, pre s → mid s)
    (after : ∀ value s, post value s → last value s) : Triple pre act last fails where
  ok := fun s value t holds ran => after value t (strong.ok s value t (before s holds) ran)
  error := fun s failure t holds ran => strong.error s failure t (before s holds) ran

theorem relax {post : α → σ → Prop} {better : ε → σ → Prop} (strong : Triple pre act post better)
    (fine : ∀ failure s, better failure s → fails failure s) : Triple pre act post fails where
  ok := strong.ok
  error := fun s failure t holds ran => fine failure t (strong.error s failure t holds ran)

-- A fact about the state is carried into the proof.
theorem given {post : α → σ → Prop} (each : ∀ s, pre s → Triple (fun t => t = s) act post fails) :
    Triple pre act post fails where
  ok := fun s value t holds ran => (each s holds).ok s value t rfl ran
  error := fun s failure t holds ran => (each s holds).error s failure t rfl ran

-- So is a fact that is not about the state.
theorem assuming {fact : Prop} {post : α → σ → Prop} (each : fact → Triple pre act post fails) :
    Triple (fun s => pre s ∧ fact) act post fails where
  ok := fun s value t holds ran => (each holds.2).ok s value t holds.1 ran
  error := fun s failure t holds ran => (each holds.2).error s failure t holds.1 ran

end Triple

theorem Ensures.ofExcept_bind {outcome : Except ε α} {next : α → Eff ε σ β} {post : β → σ → Prop}
    (each : ∀ value, outcome = .ok value → Ensures pre (next value) post) : Ensures pre (.ofExcept outcome >>= next) post :=
  Triple.ofExcept_bind each fun _ _ _ _ => trivial

theorem Ensures.any {act : Eff ε σ α} : Ensures pre act fun _ _ => True := ⟨fun _ _ _ _ _ => trivial,fun _ _ _ _ _ => trivial⟩

namespace Keeps
variable {bad : ε → Prop} {inv : σ → Prop} {act : Eff ε σ α} {next : α → Eff ε σ β}

theorem pure : Keeps bad inv (Pure.pure value : Eff ε σ α) := Triple.pure fun _ holds => holds
theorem fail {failure : ε} : Keeps bad inv (.fail failure : Eff ε σ α) := Triple.fail fun _ holds _ => holds
theorem read : Keeps bad inv (.read view : Eff ε σ α) := Triple.read fun _ holds => holds
theorem ofExcept {outcome : Except ε α} : Keeps bad inv (.ofExcept outcome) :=
  Triple.ofExcept (fun _ _ _ holds => holds) fun _ _ _ holds _ => holds
theorem bind (first : Keeps bad inv act) (second : ∀ value, Keeps bad inv (next value)) : Keeps bad inv (act >>= next) :=
  Triple.bind first second
theorem runIf {cond : Prop} [Decidable cond] {act : Eff ε σ Unit} (yes : Keeps bad inv act) :
    Keeps bad inv (.runIf cond act) := Triple.runIf (fun _ => yes) fun _ _ holds => holds
theorem forEach {act : α → Eff ε σ Unit} (each : ∀ a, Keeps bad inv (act a)) (list : List α) :
    Keeps bad inv (.forEach act list) := Triple.forEach fun a (_ : a ∈ list) => each a

theorem ensures (kept : Keeps bad inv act) : Ensures inv act fun _ => inv := ⟨kept.ok,fun _ _ _ _ _ => trivial⟩

end Keeps

-- Every failure is one of the good ones.
abbrev FailsOnly (good : ε → Prop) (act : Eff ε σ α) : Prop :=
  Triple (fun _ => True) act (fun _ _ => True) fun failure _ => good failure

namespace FailsOnly
variable {good : ε → Prop} {act : Eff ε σ α} {next : α → Eff ε σ β}

theorem pure : FailsOnly good (Pure.pure value : Eff ε σ α) := Triple.pure fun _ h => h
theorem read : FailsOnly good (.read view : Eff ε σ α) := Triple.read fun _ h => h
theorem update : FailsOnly good (.update change : Eff ε σ Unit) := Triple.update fun _ h => h
theorem fail {failure : ε} (fine : good failure) : FailsOnly good (.fail failure : Eff ε σ α) := Triple.fail fun _ _ => fine
theorem ofExcept {outcome : Except ε α} (fine : ∀ failure, outcome = .error failure → good failure) :
    FailsOnly good (.ofExcept outcome : Eff ε σ α) := Triple.ofExcept (fun _ _ _ h => h) fun failure failed _ _ => fine failure failed
theorem bind (first : FailsOnly good act) (second : ∀ value, FailsOnly good (next value)) : FailsOnly good (act >>= next) :=
  Triple.bind first second
theorem runIf {cond : Prop} [Decidable cond] {act : Eff ε σ Unit} (yes : FailsOnly good act) :
    FailsOnly good (.runIf cond act) := Triple.runIf (fun _ => yes) fun _ _ h => h
theorem forEach {act : α → Eff ε σ Unit} {list : List α} (each : ∀ a ∈ list, FailsOnly good (act a)) :
    FailsOnly good (.forEach act list) := Triple.forEach each
theorem mono {better : ε → Prop} (only : FailsOnly better act) (fine : ∀ failure, better failure → good failure) :
    FailsOnly good act where
  ok := only.ok
  error := fun s failure t before ran => fine failure (only.error s failure t before ran)

theorem attempt_bind {next : Except ε α → Eff ε σ β} (only : FailsOnly good act) (done : ∀ value, FailsOnly good (next (.ok value)))
    (failed : ∀ failure, good failure → FailsOnly good (next (.error failure))) : FailsOnly good (attempt act >>= next) where
  ok := fun _ _ _ _ _ => trivial
  error := by
    intro s failure t _ ran
    rw [attempt_bind_run] at ran
    cases outcome : act.run s with
    | mk result m =>
      rw [outcome] at ran
      cases result with
      | ok value => exact (done value).error m failure t trivial ran
      | error first => exact (failed first (only.error s first m trivial outcome)).error m failure t trivial ran

end FailsOnly

end Eff
end Rapido

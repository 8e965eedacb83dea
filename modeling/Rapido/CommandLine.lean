import Rapido.ArgumentNames

-- Which calls a command line leads to, whatever the callback does.
namespace Rapido.Arguments
open Text Eff

-- The calls a list of arguments stands for, from a state of the parser on.
inductive Reads (argList : List Argument) : State → List Str → List (Str × Option Str) → Prop where
  | done : Reads argList .top [] []
  | allDone : Reads argList .positional [] []
  | positional (known : matchArgument argList [] (some arg) = .ok long) (rest : Reads argList .positional args calls) :
      Reads argList .positional (arg :: args) ((long,some arg) :: calls)
  | first (shape : topArg arg = .plain) (known : matchArgument argList [] (some arg) = .ok long)
      (rest : Reads argList .positional args calls) : Reads argList .top (arg :: args) ((long,some arg) :: calls)
  | dashes (shape : topArg arg = .dashes) (rest : Reads argList .positional args calls) : Reads argList .top (arg :: args) calls
  | assigned (shape : topArg arg = .assigned name value) (known : matchArgument argList name (some value) = .ok long)
      (rest : Reads argList .top args calls) : Reads argList .top (arg :: args) ((long,some value) :: calls)
  | named (shape : topArg arg = .named name) (rest : Reads argList (.value name) args calls) : Reads argList .top (arg :: args) calls
  | short (shape : topArg arg = .short name value) (known : matchArgument argList name value = .ok long)
      (rest : Reads argList .top args calls) : Reads argList .top (arg :: args) ((long,value) :: calls)
  -- the value follows, or a flag has something attached to it that is ignored
  | pending (shape : topArg arg = .short name value) (lacking : matchArgument argList name value = .error (.expectedValue n))
      (rest : Reads argList (.value name) args calls) : Reads argList .top (arg :: args) calls
  | value (plain : startsWith '-' arg = false) (known : matchArgument argList name (some arg) = .ok long)
      (rest : Reads argList .top args calls) : Reads argList (.value name) (arg :: args) ((long,some arg) :: calls)
  | flag (known : matchArgument argList name none = .ok long) (rest : Reads argList .top args calls) :
      Reads argList (.value name) args ((long,none) :: calls)

def runCalls (f : Callback σ) (calls : List (Str × Option Str)) : Eff Error σ Unit := forEach (fun call => f call.1 call.2) calls

section
variable {argList : List Argument} {f : Callback σ} (plain : ∀ arg ∈ argList, arg.valueMode ≠ .optional)

include plain in
theorem known_exclusive (bare : matchArgument argList name none = .ok long) (value : Str) :
    ∃ e, matchArgument argList name (some value) = .error e := by
  cases valued : matchArgument argList name (some value) with
  | error e => exact ⟨e,rfl⟩
  | ok other => cases matchLoop_exclusive plain (matchArgument_ok.mp bare) (matchArgument_ok.mp valued)

theorem callKnown_ok : (callKnown argList f name value).run u = (.ok (),t) ↔
    ∃ long, matchArgument argList name value = .ok long ∧ (f long value).run u = (.ok (),t) := by
  unfold callKnown
  cases matchArgument argList name value with
  | error e => exact ⟨nofun,nofun⟩
  | ok long =>
    constructor
    · exact fun ran => ⟨long,rfl,ran⟩
    · rintro ⟨_,⟨⟩,ran⟩
      exact ran

theorem callKnown_unknown (unknown : matchArgument argList name value = .error e) (u : σ) :
    (callKnown argList f name value).run u = (.error e,u) := by
  unfold callKnown
  rw [unknown]
  rfl

-- Where the call without a value goes through, the one with a value has not
-- reached the callback.
include plain in
theorem callKnown_exclusive (ran : (callKnown argList f name none).run m = (.ok (),t)) (value : Str) (u : σ) :
    ∃ e, (callKnown argList f name (some value)).run u = (.error e,u) := by
  obtain ⟨long,known,_⟩ := callKnown_ok.mp ran
  obtain ⟨e,unknown⟩ := known_exclusive plain known value
  exact ⟨e,callKnown_unknown unknown u⟩

include plain in
theorem valueStep_ok : (valueStep (callKnown argList f) name arg).run u = (.ok consumed,t) ↔
    (consumed = true ∧ startsWith '-' arg = false ∧ (callKnown argList f name (some arg)).run u = (.ok (),t)) ∨
      (consumed = false ∧ (callKnown argList f name none).run u = (.ok (),t)) := by
  unfold valueStep
  cases dash : startsWith '-' arg with
  | true =>
    rw [if_pos rfl,bind_ok]
    constructor
    · rintro ⟨_,_,ran,⟨⟩⟩
      exact .inr ⟨rfl,ran⟩
    · rintro (⟨_,⟨⟩,_⟩ | ⟨rfl,ran⟩)
      exact ⟨(),t,ran,rfl⟩
  | false =>
    rw [if_neg Bool.false_ne_true,attempt_bind_run]
    cases valued : (callKnown argList f name (some arg)).run u with
    | mk result m =>
      cases result with
      | ok done =>
        constructor
        · rintro ⟨⟩
          exact .inl ⟨rfl,rfl,rfl⟩
        · rintro (⟨rfl,_,⟨⟩⟩ | ⟨rfl,ran⟩)
          · rfl
          · obtain ⟨e,failed⟩ := callKnown_exclusive plain ran arg u
            rw [failed] at valued
            cases valued
      | error e =>
        dsimp only
        rw [attempt_bind_run]
        constructor
        · intro ran
          cases bare : (callKnown argList f name none).run m with
          | mk result after =>
            rw [bare] at ran
            cases result with
            | error other => cases ran
            | ok done =>
              cases ran
              obtain ⟨_,failed⟩ := callKnown_exclusive plain bare arg u
              rw [failed] at valued
              cases valued
              exact .inr ⟨rfl,bare⟩
        · rintro (⟨_,_,⟨⟩⟩ | ⟨rfl,bare⟩)
          obtain ⟨_,failed⟩ := callKnown_exclusive plain bare arg u
          rw [failed] at valued
          cases valued
          rw [bare]
          rfl

-- The callback never asks for a value itself.
variable (decided : ∀ long value, FailsOnly (fun e => ∀ n, e ≠ .expectedValue n) (f long value))

include decided in
theorem topStep_short (shape : topArg arg = .short name value) : (topStep (callKnown argList f) arg).run u = (.ok s,t) ↔
    (s = .top ∧ (callKnown argList f name value).run u = (.ok (),t)) ∨
      (s = .value name ∧ t = u ∧ ∃ n, matchArgument argList name value = .error (.expectedValue n)) := by
  unfold topStep
  rw [shape]
  dsimp only
  rw [attempt_bind_run]
  cases known : matchArgument argList name value with
  | error e =>
    rw [callKnown_unknown known]
    cases e with
    | expectedValue n =>
      constructor
      · rintro ⟨⟩
        exact .inr ⟨rfl,rfl,n,rfl⟩
      · rintro (⟨_,⟨⟩⟩ | ⟨rfl,rfl,_⟩)
        rfl
    | badSyntax _ | unknownArgument _ | expectedArgument _ | invalidValue _ _ | unexpectedValue _ | printHelp | panic =>
      constructor
      · rintro ⟨⟩
      · rintro (⟨_,⟨⟩⟩ | ⟨_,_,_,⟨⟩⟩)
  | ok long =>
    have called : (callKnown argList f name value).run u = (f long value).run u := by
      unfold callKnown
      rw [known]
      rfl
    rw [called]
    cases ran : (f long value).run u with
    | mk result m =>
      cases result with
      | ok done =>
        constructor
        · rintro ⟨⟩
          exact .inl ⟨rfl,rfl⟩
        · rintro (⟨rfl,⟨⟩⟩ | ⟨_,_,_,⟨⟩⟩)
          rfl
      | error e =>
        have other := (decided long value).error u e m trivial ran
        constructor
        · intro failed
          cases e with
          | expectedValue n => exact absurd rfl (other n)
          | badSyntax _ | unknownArgument _ | expectedArgument _ | invalidValue _ _ | unexpectedValue _ | printHelp | panic =>
            cases failed
        · rintro (⟨_,⟨⟩⟩ | ⟨_,_,_,⟨⟩⟩)

-- What is read is what the rest of the command line is read as, after one call
-- or none.
theorem runCalls_cons : (runCalls f ((long,value) :: calls)).run u = (.ok (),t) ↔
    ∃ m, (f long value).run u = (.ok (),m) ∧ (runCalls f calls).run m = (.ok (),t) := by
  unfold runCalls
  rw [forEach,bind_ok]
  constructor
  · rintro ⟨_,m,first,rest⟩
    exact ⟨m,first,rest⟩
  · rintro ⟨m,first,rest⟩
    exact ⟨(),m,first,rest⟩

-- The parser and the calls that are read end alike.
def Agrees (argList : List Argument) (f : Callback σ) (s : State) (args : List Str) : Prop :=
  ∀ u t, (parseFrom (callKnown argList f) s args).run u = (.ok (),t) ↔
    ∃ calls, Reads argList s args calls ∧ (runCalls f calls).run u = (.ok (),t)

theorem topStep_dashes (shape : topArg arg = .dashes) : topStep f arg = pure .positional := by
  unfold topStep
  rw [shape]

theorem topStep_named (shape : topArg arg = .named name) : topStep f arg = pure (.value name) := by
  unfold topStep
  rw [shape]

theorem topStep_assigned (shape : topArg arg = .assigned name value) : topStep f arg = (f name (some value) >>= fun _ => pure .top) := by
  unfold topStep
  rw [shape]

theorem topStep_plain (shape : topArg arg = .plain) : topStep f arg = (f [] (some arg) >>= fun _ => pure .positional) := by
  unfold topStep
  rw [shape]

theorem topStep_refused (shape : topArg arg = .refused e) : topStep f arg = .fail e := by
  unfold topStep
  rw [shape]

-- A call and then the rest of the command line.
theorem call_agrees (later : Agrees argList f s args) : (callKnown argList f name value >>= fun _ =>
      parseFrom (callKnown argList f) s args).run u = (.ok (),t) ↔
    ∃ long calls, matchArgument argList name value = .ok long ∧ Reads argList s args calls ∧
      (runCalls f ((long,value) :: calls)).run u = (.ok (),t) := by
  rw [bind_ok]
  constructor
  · rintro ⟨_,m,called,ran⟩
    obtain ⟨long,known,here⟩ := callKnown_ok.mp called
    obtain ⟨calls,reads,rest⟩ := (later m t).mp ran
    exact ⟨long,calls,known,reads,runCalls_cons.mpr ⟨m,here,rest⟩⟩
  · rintro ⟨long,calls,known,reads,ran⟩
    obtain ⟨m,here,rest⟩ := runCalls_cons.mp ran
    exact ⟨(),m,callKnown_ok.mpr ⟨long,known,here⟩,(later m t).mpr ⟨calls,reads,rest⟩⟩

include decided in
theorem topStep_reads (later : ∀ s, Agrees argList f s args)
    (ran : (topStep (callKnown argList f) arg >>= fun next => parseFrom (callKnown argList f) next args).run u = (.ok (),t)) :
    ∃ calls, Reads argList .top (arg :: args) calls ∧ (runCalls f calls).run u = (.ok (),t) := by
  cases shape : topArg arg with
  | dashes =>
    rw [topStep_dashes shape] at ran
    obtain ⟨calls,reads,rest⟩ := (later .positional u t).mp ran
    exact ⟨calls,.dashes shape reads,rest⟩
  | named name =>
    rw [topStep_named shape] at ran
    obtain ⟨calls,reads,rest⟩ := (later (.value name) u t).mp ran
    exact ⟨calls,.named shape reads,rest⟩
  | assigned name value =>
    rw [topStep_assigned shape,bind_assoc] at ran
    obtain ⟨long,calls,known,reads,rest⟩ := (call_agrees (later .top)).mp ran
    exact ⟨_,.assigned shape known reads,rest⟩
  | plain =>
    rw [topStep_plain shape,bind_assoc] at ran
    obtain ⟨long,calls,known,reads,rest⟩ := (call_agrees (later .positional)).mp ran
    exact ⟨_,.first shape known reads,rest⟩
  | short name value =>
    obtain ⟨next,m,stepped,onwards⟩ := bind_ok.mp ran
    rcases (topStep_short decided shape).mp stepped with ⟨rfl,called⟩ | ⟨rfl,rfl,n,lacking⟩
    · obtain ⟨long,calls,known,reads,rest⟩ := (call_agrees (later .top)).mp (bind_ok.mpr ⟨(),m,called,onwards⟩)
      exact ⟨_,.short shape known reads,rest⟩
    · obtain ⟨calls,reads,rest⟩ := (later (.value name) _ t).mp onwards
      exact ⟨calls,.pending shape lacking reads,rest⟩
  | refused e =>
    rw [topStep_refused shape] at ran
    cases ran

include decided in
theorem reads_topStep (later : ∀ s, Agrees argList f s args) (reads : Reads argList .top (arg :: args) calls)
    (ran : (runCalls f calls).run u = (.ok (),t)) :
    (topStep (callKnown argList f) arg >>= fun next => parseFrom (callKnown argList f) next args).run u = (.ok (),t) := by
  cases reads with
  | first shape known rest =>
    rw [topStep_plain shape,bind_assoc]
    exact (call_agrees (later .positional)).mpr ⟨_,_,known,rest,ran⟩
  | dashes shape rest =>
    rw [topStep_dashes shape]
    exact (later .positional u t).mpr ⟨_,rest,ran⟩
  | assigned shape known rest =>
    rw [topStep_assigned shape,bind_assoc]
    exact (call_agrees (later .top)).mpr ⟨_,_,known,rest,ran⟩
  | named shape rest =>
    rw [topStep_named shape]
    exact (later (.value _) u t).mpr ⟨_,rest,ran⟩
  | short shape known rest =>
    obtain ⟨_,m,called,later⟩ := bind_ok.mp ((call_agrees (later .top)).mpr ⟨_,_,known,rest,ran⟩)
    exact bind_ok.mpr ⟨.top,m,(topStep_short decided shape).mpr (.inl ⟨rfl,called⟩),later⟩
  | pending shape lacking rest =>
    exact bind_ok.mpr ⟨_,u,(topStep_short decided shape).mpr (.inr ⟨rfl,rfl,_,lacking⟩),(later (.value _) u t).mpr ⟨_,rest,ran⟩⟩

include decided in
theorem top_agrees (later : ∀ s, Agrees argList f s args) : Agrees argList f .top (arg :: args) :=
  fun _ _ => ⟨topStep_reads decided later,fun ⟨_,reads,ran⟩ => reads_topStep decided later reads ran⟩

theorem positional_agrees (later : Agrees argList f .positional args) : Agrees argList f .positional (arg :: args) := by
  intro u t
  rw [parseFrom,step,bind_assoc]
  constructor
  · intro ran
    obtain ⟨long,calls,known,reads,rest⟩ := (call_agrees later).mp ran
    exact ⟨_,.positional known reads,rest⟩
  · rintro ⟨calls,reads,ran⟩
    cases reads with
    | positional known rest => exact (call_agrees later).mpr ⟨_,_,known,rest,ran⟩

-- A flag is called before the argument that shows it to be one is looked at.
include plain decided in
theorem value_agrees (later : ∀ s, Agrees argList f s args) : Agrees argList f (.value name) (arg :: args) := by
  intro u t
  have again : (∃ long calls, matchArgument argList name none = .ok long ∧ Reads argList .top (arg :: args) calls ∧
      (runCalls f ((long,none) :: calls)).run u = (.ok (),t)) ↔ _ := (call_agrees (top_agrees decided later)).symm
  have taken : (∃ long calls, matchArgument argList name (some arg) = .ok long ∧ Reads argList .top args calls ∧
      (runCalls f ((long,some arg) :: calls)).run u = (.ok (),t)) ↔ _ := (call_agrees (later .top)).symm
  rw [parseFrom,step,bind_assoc,bind_ok]
  constructor
  · rintro ⟨consumed,m,stepped,ran⟩
    rcases (valueStep_ok plain).mp stepped with ⟨rfl,dash,called⟩ | ⟨rfl,called⟩
    · obtain ⟨long,calls,known,reads,rest⟩ := taken.mpr (bind_ok.mpr ⟨(),m,called,ran⟩)
      exact ⟨_,.value dash known reads,rest⟩
    · obtain ⟨long,calls,known,reads,rest⟩ := again.mpr (bind_ok.mpr ⟨(),m,called,ran⟩)
      exact ⟨_,.flag known reads,rest⟩
  · rintro ⟨calls,reads,ran⟩
    cases reads with
    | value dash known rest =>
      obtain ⟨_,m,called,onwards⟩ := bind_ok.mp (taken.mp ⟨_,_,known,rest,ran⟩)
      exact ⟨true,m,(valueStep_ok plain).mpr (.inl ⟨rfl,dash,called⟩),onwards⟩
    | flag known rest =>
      obtain ⟨_,m,called,onwards⟩ := bind_ok.mp (again.mp ⟨_,_,known,rest,ran⟩)
      exact ⟨false,m,(valueStep_ok plain).mpr (.inr ⟨rfl,called⟩),onwards⟩

theorem end_agrees (s : State) : Agrees argList f s [] := by
  intro u t
  cases s with
  | top =>
    constructor
    · exact fun ran => ⟨[],.done,ran⟩
    · rintro ⟨_,⟨⟩,ran⟩
      exact ran
  | positional =>
    constructor
    · exact fun ran => ⟨[],.allDone,ran⟩
    · rintro ⟨_,⟨⟩,ran⟩
      exact ran
  | value name =>
    rw [parseFrom,callKnown_ok]
    constructor
    · rintro ⟨long,known,called⟩
      exact ⟨_,.flag known .done,runCalls_cons.mpr ⟨t,called,rfl⟩⟩
    · rintro ⟨_,reads,ran⟩
      cases reads with
      | flag known rest =>
        cases rest
        obtain ⟨m,called,⟨⟩⟩ := runCalls_cons.mp ran
        exact ⟨_,known,called⟩

include plain decided in
theorem parseFrom_agrees (s : State) (args : List Str) : Agrees argList f s args := by
  induction args generalizing s with
  | nil => exact end_agrees s
  | cons arg args ih =>
    cases s with
    | top => exact top_agrees decided ih
    | positional => exact positional_agrees (ih .positional)
    | value name => exact value_agrees plain decided ih

end

-- The panics of the source: none is reached unless the callback panics on a
-- call that its argument allows.
-- A call is only made with a value where the argument has one.
def NeverPanics (argList : List Argument) (f : Callback σ) : Prop :=
  ∀ arg ∈ argList, ∀ value, Allows arg value → FailsOnly (· ≠ .panic) (f arg.long value)

section
variable {argList : List Argument} {f : Callback σ} (made : ∀ arg ∈ argList, Made arg) (calm : NeverPanics argList f)

include made calm in
theorem callKnown_calm (name : Str) (value : Option Str) : FailsOnly (· ≠ .panic) (callKnown argList f name value) := by
  unfold callKnown
  cases known : matchArgument argList name value with
  | error e => exact .fail (matchArgument_calm known)
  | ok long =>
    obtain ⟨arg,inside,rfl,allows⟩ := matchArgument_allows made known
    exact calm arg inside value allows

theorem topStep_calm (calls : ∀ name value, FailsOnly (· ≠ .panic) (f name value)) (single : topArg arg ≠ .refused .panic) :
    FailsOnly (· ≠ .panic) (topStep f arg) := by
  unfold topStep
  cases shape : topArg arg with
  | dashes => exact .pure
  | assigned name value => exact .bind (calls name (some value)) fun _ => .pure
  | named name => exact .pure
  | short name value =>
    refine .attempt_bind (calls name value) (fun _ => .pure) fun e other => ?_
    cases e with
    | expectedValue n => exact .pure
    | badSyntax _ | unknownArgument _ | expectedArgument _ | invalidValue _ _ | unexpectedValue _ | printHelp => exact .fail nofun
    | panic => exact absurd rfl other
  | plain => exact .bind (calls [] (some arg)) fun _ => .pure
  | refused e =>
    refine .fail fun same => single ?_
    rw [shape,same]

theorem valueStep_calm (calls : ∀ name value, FailsOnly (· ≠ .panic) (f name value)) (name arg : Str) :
    FailsOnly (· ≠ .panic) (valueStep f name arg) := by
  unfold valueStep
  split
  · exact .bind (calls name none) fun _ => .pure
  · refine .attempt_bind (calls name (some arg)) (fun _ => .pure) fun e other => ?_
    exact .attempt_bind (calls name none) (fun _ => .pure) fun _ _ => .fail other

theorem parseFrom_calm (calls : ∀ name value, FailsOnly (· ≠ .panic) (f name value)) (s : State) (args : List Str)
    (single : ∀ arg ∈ args, topArg arg ≠ .refused .panic) : FailsOnly (· ≠ .panic) (parseFrom f s args) := by
  induction args generalizing s with
  | nil =>
    cases s with
    | top => exact .pure
    | positional => exact .pure
    | value name => exact calls name none
  | cons arg args ih =>
    have later := fun next => ih next fun other inside => single other (List.mem_cons_of_mem _ inside)
    have here := topStep_calm calls (single arg List.mem_cons_self)
    rw [parseFrom]
    refine .bind ?_ fun next => later next
    cases s with
    | top => exact here
    | positional => exact .bind (calls [] (some arg)) fun _ => .pure
    | value name =>
      refine .bind (valueStep_calm calls name arg) fun consumed => ?_
      split
      · exact .pure
      · exact here

end
-- A list of one parameter and one flag, whose calls are written down.
def sampleList : List Argument := [.takes "output" "FILE",.shortFlag 'h' "help"]
end Rapido.Arguments

import Rapido.CommandLine
import Rapido.CutMain

-- src/bin/rapido-cut.rs: the command line.
namespace Rapido.Cut
open UnixPath Cpio Text Eff Arguments

structure ArgsState where
  cpioOutputArg : Option Path := none
  manifests : List Fest := []
deriving DecidableEq, Repr

-- The Debug text of the error that follows "failed to stat: " is left out.
def manifestOpen (fs : FileSystem) (value : Str) : Except Arguments.Error Fest :=
  match pathStat fs (.manifest (Utf8.encode value)) with
  | .error e => .error (if e.kind = .panic then .panic else .invalidValue value "failed to stat: ")
  | .ok got => match fs.fileOpen got.path with
    | .error _ => .error (.invalidValue value "failed to open: ")
    | .ok (_,bytes) => .ok (festLines [] bytes)

-- value.unwrap()
def unwrapValue (value : Option Str) : Eff Arguments.Error ArgsState Str :=
  match value with
  | some v => pure v
  | none => .fail .panic

def argsProcessOne (fs : FileSystem) : Callback ArgsState := fun name value =>
  if name = "output".toList then do
    let v ← unwrapValue value
    Eff.update fun s => {s with cpioOutputArg:=some (Utf8.encode v)}
  else if name = "manifest".toList then do
    let v ← unwrapValue value
    let fest ← Eff.ofExcept (manifestOpen fs v)
    Eff.update fun s => {s with manifests:=s.manifests ++ [fest]}
  else if name = "help".toList then .fail .printHelp
  else .fail .panic

def cutParams : List Argument := [.takes "output" "INITRAMFS",.takes "manifest" "FILE",.shortFlag 'h' "help"]

-- `args` are the arguments without the name of the binary.
def argsProcess (fs : FileSystem) (args : List Str) : Except Arguments.Error ArgsState :=
  match (setArguments args cutParams (argsProcessOne fs)).run {} with
  | (.ok (),state) => .ok state
  | (.error e,_) => .error e

inductive Param where
  | output
  | manifest
deriving DecidableEq, Repr

def Param.long : Param → Str
  | .output => "output".toList
  | .manifest => "manifest".toList

-- The command lines of rapido-cut: parameters with their values, each in one of
-- two spellings, and "--" or nothing after them.
inductive Spells : List Str → List (Param × Str) → Prop where
  | nothing : Spells [] []
  | dashes : Spells ["--".toList] []
  | separate (two : 2 ≤ n) (plain : startsWith '-' value = false) (rest : Spells args given) :
      Spells (dashed n param.long :: value :: args) ((param,value) :: given)
  | assigned (two : 2 ≤ n) (some : value ≠ []) (rest : Spells args given) :
      Spells (dashed n (param.long ++ '=' :: value) :: args) ((param,value) :: given)

-- The values of a parameter in the order of the command line.
def valuesOf (param : Param) (given : List (Param × Str)) : List Str :=
  given.filterMap fun pair => if pair.1 = param then some pair.2 else none

-- What a command line asks for: the last output and all the manifests.
structure Asks (fs : FileSystem) (given : List (Param × Str)) (state : ArgsState) : Prop where
  output : state.cpioOutputArg = (valuesOf .output given).getLast?.map Utf8.encode
  manifests : List.Forall₂ (fun name fest => manifestOpen fs name = .ok fest) (valuesOf .manifest given) state.manifests

theorem cutParams_made : ∀ arg ∈ cutParams, Made arg := by decide
theorem cutParams_plain : ∀ arg ∈ cutParams, arg.valueMode ≠ .optional := by decide
theorem cutParams_distinct : Distinct cutParams := distinct_of_names (by decide)

theorem long_plain (param : Param) : startsWith '-' param.long = false := by cases param <;> rfl
theorem long_single (param : Param) : param.long ≠ [c] := by cases param <;> exact nofun
theorem long_some (param : Param) : param.long ≠ [] := by cases param <;> exact nofun
theorem long_whole (param : Param) : '=' ∉ param.long := by cases param <;> decide

theorem long_injective {param other : Param} (same : param.long = other.long) : param = other := by
  cases param <;> cases other <;> first | rfl | exact absurd same (by decide)

-- The two parameters go with a value and the flag goes without.
theorem cutParams_match : matchArgument cutParams name value = .ok long ↔
    (∃ param : Param, name = param.long ∧ long = param.long ∧ value.isSome = true) ∨
      ((name = ['h'] ∨ name = "help".toList) ∧ long = "help".toList ∧ value = none) := by
  rw [matchArgument_iff cutParams_made cutParams_plain cutParams_distinct]
  constructor
  · rintro ⟨arg,inside,named,rfl,allows⟩
    rw [allows_iff (cutParams_made arg inside) (cutParams_plain arg inside)] at allows
    simp only [cutParams,List.mem_cons,List.not_mem_nil,or_false] at inside
    rcases inside with rfl | rfl | rfl
    · rcases named with ⟨_,⟨⟩,_⟩ | rfl
      exact .inl ⟨.output,rfl,rfl,allows⟩
    · rcases named with ⟨_,⟨⟩,_⟩ | rfl
      exact .inl ⟨.manifest,rfl,rfl,allows⟩
    · refine .inr ⟨?_,rfl,Option.isNone_iff_eq_none.mp (Option.isSome_eq_false_iff.mp allows)⟩
      rcases named with ⟨_,⟨⟩,_,rfl⟩ | rfl
      · exact .inl rfl
      · exact .inr rfl
  · rintro (⟨param,rfl,rfl,given⟩ | ⟨named,rfl,rfl⟩)
    · cases param with
      | output => exact ⟨.takes "output" "INITRAMFS",by simp [cutParams],.inr rfl,rfl,fun _ => given,nofun⟩
      | manifest => exact ⟨.takes "manifest" "FILE",by simp [cutParams],.inr rfl,rfl,fun _ => given,nofun⟩
    · refine ⟨.shortFlag 'h' "help",by simp [cutParams],?_,rfl,nofun,fun _ => rfl⟩
      rcases named with rfl | rfl
      · exact .inl ⟨'h',rfl,rfl,rfl⟩
      · exact .inr rfl

def callOf (pair : Param × Str) : Str × Option Str := (pair.1.long,some pair.2)

-- What the calls without a flag among them are made from, in each state.
def SpellsFrom (calls : List (Str × Option Str)) : Arguments.State → List Str → Prop
  | .top,args => ∃ given, Spells args given ∧ calls = given.map callOf
  | .positional,args => args = [] ∧ calls = []
  | .value name,args => ∃ param value rest given, name = param.long ∧ args = value :: rest ∧ startsWith '-' value = false ∧
      Spells rest given ∧ calls = callOf (param,value) :: given.map callOf

theorem positional_unknown : matchArgument cutParams [] (some arg) ≠ .ok long := by
  rw [Ne,cutParams_match]
  rintro (⟨param,named,_⟩ | ⟨_,_,⟨⟩⟩)
  exact long_some param named.symm

theorem reads_spells (reads : Reads cutParams s args calls) (unhelped : ∀ call ∈ calls, call.1 ≠ "help".toList) :
    SpellsFrom calls s args := by
  induction reads with
  | done => exact ⟨[],.nothing,rfl⟩
  | allDone => exact ⟨rfl,rfl⟩
  | positional known => exact absurd known positional_unknown
  | first shape known => exact absurd known positional_unknown
  | dashes shape rest ih =>
    obtain ⟨rfl,rfl⟩ := ih unhelped
    rw [topArg_dashes shape]
    exact ⟨[],.dashes,rfl⟩
  | assigned shape known rest ih =>
    obtain ⟨given,spells,rfl⟩ := ih fun call inside => unhelped call (List.mem_cons_of_mem _ inside)
    obtain ⟨n,two,rfl,_,some⟩ := topArg_assigned shape
    rcases cutParams_match.mp known with ⟨param,rfl,rfl,_⟩ | ⟨_,_,⟨⟩⟩
    exact ⟨_,.assigned two some spells,rfl⟩
  | named shape rest ih =>
    obtain ⟨param,value,args,given,rfl,rfl,plain,spells,rfl⟩ := ih unhelped
    obtain ⟨n,two,rfl⟩ := topArg_named shape
    exact ⟨_,.separate two plain spells,rfl⟩
  | short shape known rest ih =>
    obtain ⟨c,rfl⟩ := topArg_short shape
    rcases cutParams_match.mp known with ⟨param,named,_⟩ | ⟨_,rfl,_⟩
    · exact absurd named.symm (long_single param)
    · exact absurd rfl (unhelped _ List.mem_cons_self)
  | pending shape lacking rest ih =>
    obtain ⟨c,rfl⟩ := topArg_short shape
    obtain ⟨param,_,_,_,named,_⟩ := ih unhelped
    exact absurd named.symm (long_single param)
  | value plain known rest ih =>
    obtain ⟨given,spells,rfl⟩ := ih fun call inside => unhelped call (List.mem_cons_of_mem _ inside)
    rcases cutParams_match.mp known with ⟨param,rfl,rfl,_⟩ | ⟨_,_,⟨⟩⟩
    exact ⟨param,_,_,given,rfl,rfl,plain,spells,rfl⟩
  | flag known rest ih =>
    rcases cutParams_match.mp known with ⟨_,_,_,⟨⟩⟩ | ⟨_,rfl,_⟩
    exact absurd rfl (unhelped _ List.mem_cons_self)

theorem spells_reads (spells : Spells args given) : Reads cutParams .top args (given.map callOf) := by
  have known : ∀ (param : Param) (value : Str), matchArgument cutParams param.long (some value) = .ok param.long :=
    fun param _ => cutParams_match.mpr (.inl ⟨param,rfl,rfl,rfl⟩)
  induction spells with
  | nothing => exact .done
  | dashes => exact .dashes rfl .allDone
  | @separate n value args given param two plain rest ih =>
    exact .named (topArg_name two (long_plain param) (long_some param) (long_whole param)) (.value plain (known param value) ih)
  | @assigned n value args given param two some rest ih =>
    exact .assigned (topArg_assign two (long_plain param) (long_some param) (long_whole param) some) (known param value) ih

-- One call with a value.
def take (fs : FileSystem) (param : Param) (value : Str) (u : ArgsState) : Except Arguments.Error ArgsState :=
  match param with
  | .output => .ok {u with cpioOutputArg:=some (Utf8.encode value)}
  | .manifest => (manifestOpen fs value).map fun fest => {u with manifests:=u.manifests ++ [fest]}

theorem take_manifest : take fs .manifest value u = .ok t ↔
    ∃ fest, manifestOpen fs value = .ok fest ∧ {u with manifests:=u.manifests ++ [fest]} = t := by
  unfold take
  cases manifestOpen fs value with
  | error e => exact ⟨nofun,nofun⟩
  | ok fest =>
    constructor
    · rintro ⟨⟩
      exact ⟨fest,rfl,rfl⟩
    · rintro ⟨_,⟨⟩,rfl⟩
      rfl

theorem argsProcessOne_ok : (argsProcessOne fs long value).run u = (.ok (),t) ↔
    ∃ param v, long = param.long ∧ value = some v ∧ take fs param v u = .ok t := by
  constructor
  · intro ran
    unfold argsProcessOne at ran
    split at ran
    · rename_i output
      cases value with
      | none => cases ran
      | some v =>
        cases ran
        exact ⟨.output,v,output,rfl,rfl⟩
    · split at ran
      · rename_i manifest
        cases value with
        | none => cases ran
        | some v =>
          have opened : (Eff.ofExcept (manifestOpen fs v) >>= fun fest =>
            Eff.update fun s => {s with manifests:=s.manifests ++ [fest]}).run u = (.ok (),t) := ran
          refine ⟨.manifest,v,manifest,rfl,take_manifest.mpr ?_⟩
          cases found : manifestOpen fs v with
          | error e =>
            rw [found] at opened
            cases opened
          | ok fest =>
            rw [found] at opened
            cases opened
            exact ⟨fest,rfl,rfl⟩
      · split at ran
        · cases ran
        · cases ran
  · rintro ⟨param,v,rfl,rfl,taken⟩
    cases param with
    | output =>
      cases taken
      rfl
    | manifest =>
      obtain ⟨fest,found,rfl⟩ := take_manifest.mp taken
      have second : (argsProcessOne fs Param.manifest.long (some v)).run u =
          (Eff.ofExcept (manifestOpen fs v) >>= fun fest => Eff.update fun s => {s with manifests:=s.manifests ++ [fest]}).run u := rfl
      rw [second,found]
      rfl

theorem argsProcessOne_decided (fs : FileSystem) (long : Str) (value : Option Str) :
    FailsOnly (fun e => ∀ n, e ≠ .expectedValue n) (argsProcessOne fs long value) := by
  have unwrapped : FailsOnly (fun e => ∀ n, e ≠ .expectedValue n) (unwrapValue value) := by
    unfold unwrapValue
    cases value with
    | none => exact .fail nofun
    | some v => exact .pure
  have opened : ∀ v e, manifestOpen fs v = .error e → ∀ n, e ≠ .expectedValue n := by
    intro v e failed
    unfold manifestOpen at failed
    split at failed
    · cases failed
      split
      · exact nofun
      · exact nofun
    · split at failed
      · cases failed
        exact nofun
      · cases failed
  unfold argsProcessOne
  split
  · exact .bind unwrapped fun _ => .update
  · split
    · exact .bind unwrapped fun v => .bind (.ofExcept (opened v)) fun _ => .update
    · split
      · exact .fail nofun
      · exact .fail nofun

theorem call_taken (param : Param) (value : Str) : (argsProcessOne fs (callOf (param,value)).1 (callOf (param,value)).2).run u = (.ok (),t) ↔
    take fs param value u = .ok t := by
  rw [argsProcessOne_ok]
  constructor
  · rintro ⟨other,_,same,⟨⟩,taken⟩
    obtain rfl : param = other := long_injective same
    exact taken
  · exact fun taken => ⟨param,value,rfl,rfl,taken⟩

-- Later outputs replace earlier ones, and the manifests are opened in order.
theorem runCalls_given (given : List (Param × Str)) (u t : ArgsState) :
    (runCalls (argsProcessOne fs) (given.map callOf)).run u = (.ok (),t) ↔
      t.cpioOutputArg = ((valuesOf .output given).getLast?.map Utf8.encode).or u.cpioOutputArg ∧
      ∃ fests, List.Forall₂ (fun name fest => manifestOpen fs name = .ok fest) (valuesOf .manifest given) fests ∧
        t.manifests = u.manifests ++ fests := by
  induction given generalizing u with
  | nil =>
    constructor
    · rintro ⟨⟩
      exact ⟨rfl,[],.nil,(List.append_nil _).symm⟩
    · rintro ⟨output,fests,⟨⟩,manifests⟩
      rw [List.append_nil] at manifests
      obtain ⟨_,_⟩ := t
      cases output
      cases manifests
      rfl
  | cons pair given ih =>
    obtain ⟨param,value⟩ := pair
    rw [List.map_cons,runCalls_cons]
    simp only [ih,call_taken]
    cases param with
    | output =>
      have outputs : valuesOf .output ((.output,value) :: given) = value :: valuesOf .output given := rfl
      have manifests : valuesOf .manifest ((.output,value) :: given) = valuesOf .manifest given := rfl
      have last : ∀ front : Option Path, ((valuesOf .output given).getLast?.map Utf8.encode).or (some (Utf8.encode value)) =
          ((value :: valuesOf .output given).getLast?.map Utf8.encode).or front := by
        intro front
        rw [List.getLast?_cons]
        cases (valuesOf .output given).getLast? with
        | none => rfl
        | some later => rfl
      rw [outputs,manifests]
      constructor
      · rintro ⟨m,⟨⟩,output,rest⟩
        exact ⟨output.trans (last _),rest⟩
      · rintro ⟨output,rest⟩
        exact ⟨_,rfl,output.trans (last _).symm,rest⟩
    | manifest =>
      have outputs : valuesOf .output ((.manifest,value) :: given) = valuesOf .output given := rfl
      have manifests : valuesOf .manifest ((.manifest,value) :: given) = value :: valuesOf .manifest given := rfl
      rw [outputs,manifests]
      simp only [take_manifest]
      constructor
      · rintro ⟨_,⟨fest,found,rfl⟩,output,fests,opened,rest⟩
        exact ⟨output,fest :: fests,.cons found opened,by rw [rest,List.append_assoc]; rfl⟩
      · rintro ⟨output,_,_ | ⟨found,opened⟩,rest⟩
        refine ⟨_,⟨_,found,rfl⟩,output,_,opened,?_⟩
        rw [rest,List.append_assoc]
        rfl

theorem calls_unhelped (ran : (runCalls (argsProcessOne fs) calls).run u = (.ok (),t)) : ∀ call ∈ calls, call.1 ≠ "help".toList := by
  induction calls generalizing u with
  | nil => exact nofun
  | cons call calls ih =>
    obtain ⟨m,first,rest⟩ := runCalls_cons.mp ran
    obtain ⟨param,_,long,_⟩ := argsProcessOne_ok.mp first
    intro other inside
    rcases List.mem_cons.mp inside with rfl | later
    · rw [long]
      cases param <;> decide
    · exact ih rest other later

-- rapido-cut accepts just the command lines that spell parameters with values
-- whose manifests can all be opened, and takes the last output from them.
theorem argsProcess_asks (fs : FileSystem) (args : List Str) (state : ArgsState) :
    argsProcess fs args = .ok state ↔ ∃ given, Spells args given ∧ Asks fs given state := by
  have parsed := parseFrom_agrees cutParams_plain (argsProcessOne_decided fs) .top args {} state
  have unfolded : argsProcess fs args = .ok state ↔ (setArguments args cutParams (argsProcessOne fs)).run {} = (.ok (),state) := by
    unfold argsProcess
    cases (setArguments args cutParams (argsProcessOne fs)).run {} with
    | mk result t =>
      cases result with
      | error e => exact ⟨nofun,nofun⟩
      | ok done =>
        constructor
        · rintro ⟨⟩
          rfl
        · rintro ⟨⟩
          rfl
  have asked : ∀ given, (runCalls (argsProcessOne fs) (given.map callOf)).run {} = (.ok (),state) ↔ Asks fs given state := by
    intro given
    rw [runCalls_given]
    constructor
    · rintro ⟨output,fests,opened,rest⟩
      exact ⟨by rw [output,Option.or_none],by rw [rest]; exact opened⟩
    · rintro ⟨output,manifests⟩
      exact ⟨by rw [output,Option.or_none],_,manifests,rfl⟩
  rw [unfolded]
  refine parsed.trans ?_
  constructor
  · rintro ⟨calls,reads,ran⟩
    obtain ⟨given,spells,rfl⟩ := reads_spells reads (calls_unhelped ran)
    exact ⟨given,spells,(asked given).mp ran⟩
  · rintro ⟨given,spells,asks⟩
    exact ⟨_,spells_reads spells,(asked given).mpr asks⟩

-- path::absolute fails on the empty path only, which has no separator in it.
theorem statByName_returns (failed : statByName fs dirs missing name = .error e) : e.kind ≠ .panic := by
  unfold statByName at failed
  split at failed
  · rename_i separated
    split at failed
    · split at failed
      · cases failed
      · rename_i refused
        unfold absolute at refused
        split at refused
        · rename_i empty
          rw [empty] at separated
          cases separated
        · cases refused
    · cases failed
      exact nofun
  · split at failed
    · cases failed
    · cases failed
      exact nofun

theorem manifestOpen_returns (failed : manifestOpen fs value = .error e) : e ≠ .panic := by
  unfold manifestOpen at failed
  split at failed
  · rename_i lost
    rw [if_neg (statByName_returns lost)] at failed
    cases failed
    exact nofun
  · split at failed
    · cases failed
      exact nofun
    · cases failed

theorem argsProcessOne_calm (fs : FileSystem) : NeverPanics cutParams (argsProcessOne fs) := by
  intro arg inside value allows
  simp only [cutParams,List.mem_cons,List.not_mem_nil,or_false] at inside
  rcases inside with rfl | rfl | rfl
  · obtain ⟨v,rfl⟩ := Option.isSome_iff_exists.mp (allows.1 rfl)
    exact .bind .pure fun _ => .update
  · obtain ⟨v,rfl⟩ := Option.isSome_iff_exists.mp (allows.1 rfl)
    exact .bind .pure fun _ => .bind (.ofExcept fun _ failed => manifestOpen_returns failed) fun _ => .update
  · exact .fail nofun

-- No unwrap() and no unreachable!() behind the command line is reached: it
-- panics only in a slice, where a character of several bytes follows a dash.
theorem argsProcess_calm (fs : FileSystem) (args : List Str)
    (single : ∀ arg ∈ args, ∀ c rest, arg = '-' :: c :: rest → c.utf8Size = 1) : argsProcess fs args ≠ .error .panic := by
  have calm : FailsOnly (· ≠ .panic) (setArguments args cutParams (argsProcessOne fs)) := by
    refine parseFrom_calm (callKnown_calm cutParams_made (argsProcessOne_calm fs)) .top args fun arg inside refused => ?_
    obtain ⟨c,rest,spelled,wide⟩ := topArg_panic refused
    exact wide (single arg inside c rest spelled)
  unfold argsProcess
  cases ran : (setArguments args cutParams (argsProcessOne fs)).run {} with
  | mk result t =>
    cases result with
    | ok done => exact nofun
    | error e =>
      rintro ⟨⟩
      exact calm.error _ _ _ trivial ran rfl

theorem flags_calm : argsProcess bareHost.toFileSystem ["--manifest".toList,"-hx".toList,"é".toList] ≠ .error .panic := by
  refine argsProcess_calm _ _ fun arg inside c rest spelled => ?_
  simp only [List.mem_cons,List.not_mem_nil,or_false] at inside
  rcases inside with rfl | rfl | rfl
  · cases spelled
    rfl
  · cases spelled
    rfl
  · cases spelled

end Rapido.Cut

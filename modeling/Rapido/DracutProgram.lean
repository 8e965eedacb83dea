import Rapido.CommandLine
import Rapido.DracutListing

-- src/bin/dracut-cpio.rs: the command line, and archives chained in one file.
namespace Rapido.DracutCpio
open UnixPath Cpio Newc Text Arguments Radix

-- What the callback of params_process changes.
structure Params where
  props : ArchiveProperties := {}
  positionalArgs : Nat := 0
  truncateExisting : Bool := false
deriving DecidableEq, Repr

-- str::parse::<u32>
def parseU32 (s : Str) : Option UInt32 := (fromStrRadix 10 (2^32) (Utf8.encode s)).map UInt32.ofNat

def parseOr (s : Str) (expected : String) : Except Arguments.Error UInt32 :=
  match parseU32 s with
  | some n => .ok n
  | none => .error (.invalidValue s expected)

def ownerOf (value : Str) : List UInt32 → Except Arguments.Error (UInt32 × UInt32)
  | [uid,gid] => .ok (uid,gid)
  | _ => .error (.invalidValue value "owner must be UID:GID")

-- The ids between the colons, up to the first that is no number.
def parseOwner (value : Str) : Except Arguments.Error (UInt32 × UInt32) := do
  let ids ← (value.splitOn ':').mapM fun id => parseOr id "uid/gid must be an integer"
  ownerOf value ids

def unwrapParam (value : Option Str) : Eff Arguments.Error Params Str :=
  match value with
  | some v => pure v
  | none => .fail .panic

-- "null" has no branch of its own.
def paramsProcessOne : Callback Params := fun name value =>
  if name = [] then Eff.update fun s => {s with positionalArgs:=s.positionalArgs+1}
  else if name = "data-align".toList then do
    let v ← unwrapParam value
    let n ← Eff.ofExcept (parseOr v "data-align must be an integer")
    Eff.update fun s => {s with props:={s.props with dataAlign:=n}}
  else if name = "mtime".toList then do
    let v ← unwrapParam value
    let n ← Eff.ofExcept (parseOr v "mtime must be an integer")
    Eff.update fun s => {s with props:={s.props with fixedMtime:=some n}}
  else if name = "owner".toList then do
    let v ← unwrapParam value
    let (uid,gid) ← Eff.ofExcept (parseOwner v)
    Eff.update fun s => {s with props:={s.props with fixedUid:=some uid,fixedGid:=some gid}}
  else if name = "truncate-existing".toList then Eff.update fun s => {s with truncateExisting:=true}
  else if name = "help".toList then .fail .printHelp
  else .fail .panic

def dracutParams : List Argument := [.positional "OUTPUT",.takes "data-align" "ALIGNMENT",.shortFlag '0' "null",
  .takes "mtime" "EPOCH",.takes "owner" "UID:GID",.flag "truncate-existing",.shortFlag 'h' "help"]

-- The output path is the last argument, whichever of them was the positional
-- one. There is a last argument where one was counted.
def paramsProcess (args : List Str) : Except Arguments.Error (Path × Bool × ArchiveProperties) :=
  match (setArguments args dracutParams paramsProcessOne).run {} with
  | (.error e,_) => .error e
  | (.ok (),s) =>
    if s.positionalArgs ≠ 1 then .error (.expectedArgument "one OUTPUT parameter required")
    else .ok (Utf8.encode (args.getLastD []),s.truncateExisting,s.props)

-- What dracut-cpio is started with: its arguments, its input and the machine,
-- on which a file may refuse to be opened.
structure Invocation extends FileSystem where
  args : List Str
  input : List UInt8
  openable : Path → Except IoError Unit

-- The contents of the files that are written to. A missing file is empty.
abbrev Disk := Path → List UInt8

def main (inv : Invocation) : Eff IoError Disk Unit :=
  match paramsProcess inv.args with
  | .error .printHelp => pure ()
  | .error .panic => .fail ⟨.panic,"params_process()"⟩
  | .error e => .fail ⟨.invalidInput,e.display⟩
  | .ok (outputPath,truncateExisting,props) => do
    Eff.ofExcept (inv.openable outputPath)
    Eff.runIf (truncateExisting = true) (Eff.update fun disk => Function.update disk outputPath [])
    let existing ← Eff.read fun disk => disk outputPath
    let props := if truncateExisting then props else {props with initialDataOff:=.ofNat existing.length}
    let (result,archive) := archiveReader inv.toFileSystem props inv.input
    Eff.update fun disk => Function.update disk outputPath (existing ++ archive.out)
    let _ ← Eff.ofExcept result

theorem dracutParams_made : ∀ arg ∈ dracutParams, Made arg := by decide
theorem dracutParams_plain : ∀ arg ∈ dracutParams, arg.valueMode ≠ .optional := by decide
theorem dracutParams_distinct : Distinct dracutParams := distinct_of_names (by decide)

theorem dracutParams_positional : ∀ arg ∈ dracutParams, arg.long = [] → arg.short = none := by decide

-- Only the empty name stands for the positional argument.
theorem positional_iff (known : matchArgument dracutParams name value = .ok long) : long = [] ↔ name = [] := by
  obtain ⟨arg,inside,named,rfl,_⟩ := (matchArgument_iff dracutParams_made dracutParams_plain dracutParams_distinct).mp known
  rcases named with ⟨c,short,_,rfl⟩ | rfl
  · refine ⟨fun long => ?_,nofun⟩
    rw [dracutParams_positional arg inside long] at short
    cases short
  · exact Iff.rfl

-- The values of the calls that count as positional.
def positionals (calls : List (Str × Option Str)) : List (Option Str) :=
  calls.filterMap fun call => if call.1 = [] then some call.2 else none

theorem positionals_named (named : long ≠ []) : positionals ((long,value) :: calls) = positionals calls := by
  unfold positionals
  rw [List.filterMap_cons,if_neg named]

theorem positionals_plain : positionals (([],value) :: calls) = value :: positionals calls := by
  unfold positionals
  rw [List.filterMap_cons,if_pos rfl]

-- After the first positional argument all the others are positional too.
theorem reads_positional (reads : Reads dracutParams .positional args calls) : positionals calls = args.map some := by
  cases reads with
  | allDone => rfl
  | positional known rest =>
    rw [(positional_iff known).mpr rfl,positionals_plain,reads_positional rest]
    rfl

-- An argument of dashes alone, which names nothing.
def Nameless (arg : Str) : Prop := ∃ n, 3 ≤ n ∧ arg = List.replicate n '-'

theorem nameless_other (other : arg.any (· != '-') = true) : ¬Nameless arg := by
  rintro ⟨n,_,rfl⟩
  obtain ⟨c,inside,different⟩ := List.any_eq_true.mp other
  rw [List.eq_of_mem_replicate inside] at different
  cases different

theorem topArg_nameless (read : topArg arg = .named []) : Nameless arg := by
  obtain ⟨n,two,spelled⟩ := topArg_named read
  have dashes : arg = List.replicate n '-' := by rw [spelled,dashed,List.append_nil]
  refine ⟨n,Nat.lt_of_le_of_ne two fun same => ?_,dashes⟩
  subst same
  rw [dashes] at read
  cases read

theorem last_cons {value : Option Str} (last : args.getLast?.map some = some value) : (arg :: args).getLast?.map some = some value := by
  cases args with
  | nil => cases last
  | cons second rest => rwa [List.getLast?_cons_cons]

-- Where a command line has one positional argument, and no argument that names
-- nothing, the positional one comes last.
theorem reads_last (reads : Reads dracutParams s args calls) (named : ∀ arg ∈ args, ¬Nameless arg) (state : s ≠ .value [])
    (single : positionals calls = [value]) : args.getLast?.map some = some value := by
  have other : ∀ {name value long}, matchArgument dracutParams name value = .ok long → name ≠ [] → long ≠ [] :=
    fun known some empty => some ((positional_iff known).mp empty)
  have tail : ∀ {args arg calls}, Reads dracutParams .positional args calls → positionals (([],some arg) :: calls) = [value] →
      args = [] ∧ value = some arg := by
    intro args arg calls rest single
    rw [positionals_plain,reads_positional rest] at single
    cases args with
    | nil => exact ⟨rfl,(List.cons.inj single).1.symm⟩
    | cons _ _ => cases single
  induction reads with
  | done => cases single
  | allDone => cases single
  | positional known rest =>
    rw [(positional_iff known).mpr rfl] at single
    obtain ⟨rfl,rfl⟩ := tail rest single
    rfl
  | first shape known rest =>
    rw [(positional_iff known).mpr rfl] at single
    obtain ⟨rfl,rfl⟩ := tail rest single
    rfl
  | dashes shape rest ih => exact last_cons (ih (fun arg inside => named arg (List.mem_cons_of_mem _ inside)) nofun single)
  | assigned shape known rest ih =>
    obtain ⟨_,_,_,some,_⟩ := topArg_assigned shape
    rw [positionals_named (other known some)] at single
    exact last_cons (ih (fun arg inside => named arg (List.mem_cons_of_mem _ inside)) nofun single)
  | named shape rest ih =>
    refine last_cons (ih (fun arg inside => named arg (List.mem_cons_of_mem _ inside)) ?_ single)
    rintro ⟨⟩
    exact named _ List.mem_cons_self (topArg_nameless shape)
  | short shape known rest ih =>
    obtain ⟨c,rfl⟩ := topArg_short shape
    rw [positionals_named (other known nofun)] at single
    exact last_cons (ih (fun arg inside => named arg (List.mem_cons_of_mem _ inside)) nofun single)
  | pending shape lacking rest ih =>
    obtain ⟨c,rfl⟩ := topArg_short shape
    exact last_cons (ih (fun arg inside => named arg (List.mem_cons_of_mem _ inside)) nofun single)
  | value plain known rest ih =>
    rw [positionals_named (other known fun empty => state (by rw [empty]))] at single
    exact last_cons (ih (fun arg inside => named arg (List.mem_cons_of_mem _ inside)) nofun single)
  | flag known rest ih =>
    rw [positionals_named (other known fun empty => state (by rw [empty]))] at single
    exact ih named nofun single

-- What a call that is accepted has counted and set.
structure Counted (long : Str) (u t : Params) : Prop where
  positional : t.positionalArgs = u.positionalArgs + if long = [] then 1 else 0
  truncate : t.truncateExisting = true ↔ u.truncateExisting = true ∨ long = "truncate-existing".toList
  known : long ≠ "null".toList
  limit : t.props.namesizeMax = u.props.namesizeMax
  offset : t.props.initialDataOff = u.props.initialDataOff

-- A value that is parsed and then put somewhere.
theorem valued_ok {parse : Str → Except Arguments.Error α} {put : α → Params → Params}
    (ran : (unwrapParam value >>= fun v => Eff.ofExcept (parse v) >>= fun n => Eff.update (put n)).run u = (.ok (),t)) :
    ∃ n, t = put n u := by
  cases value with
  | none => cases ran
  | some v =>
    obtain ⟨_,_,⟨⟩,rest⟩ := Eff.bind_ok.mp ran
    obtain ⟨n,_,parsed,⟨⟩⟩ := Eff.bind_ok.mp rest
    obtain ⟨_,rfl⟩ := Eff.ofExcept_run_ok parsed
    exact ⟨n,rfl⟩

-- A parameter with a value changes the properties of the archive alone.
theorem counted_props (other : long ≠ [] ∧ long ≠ "truncate-existing".toList ∧ long ≠ "null".toList) (u : Params)
    (limit : props.namesizeMax = u.props.namesizeMax) (offset : props.initialDataOff = u.props.initialDataOff) :
    Counted long u {u with props} :=
  ⟨by rw [if_neg other.1]; rfl,⟨.inl,fun either => either.resolve_right other.2.1⟩,other.2.2,limit,offset⟩

theorem paramsProcessOne_counted (ran : (paramsProcessOne long value).run u = (.ok (),t)) : Counted long u t := by
  unfold paramsProcessOne at ran
  split at ran
  · rename_i empty
    cases ran
    refine ⟨by rw [if_pos empty],⟨.inl,fun either => either.resolve_right ?_⟩,?_,rfl,rfl⟩
    · rw [empty]
      exact nofun
    · rw [empty]
      exact nofun
  · rename_i some
    split at ran
    · rename_i align
      obtain ⟨n,rfl⟩ := valued_ok ran
      exact counted_props (by rw [align]; decide) u rfl rfl
    · split at ran
      · rename_i mtime
        obtain ⟨n,rfl⟩ := valued_ok ran
        exact counted_props (by rw [mtime]; decide) u rfl rfl
      · split at ran
        · rename_i owner
          obtain ⟨ids,rfl⟩ := valued_ok ran
          exact counted_props (by rw [owner]; decide) u rfl rfl
        · split at ran
          · rename_i truncates
            cases ran
            exact ⟨by rw [if_neg some]; rfl,⟨fun _ => .inr truncates,fun _ => rfl⟩,by rw [truncates]; decide,rfl,rfl⟩
          · split at ran
            · cases ran
            · cases ran

theorem runCalls_counted (ran : (runCalls paramsProcessOne calls).run u = (.ok (),t)) :
    t.positionalArgs = u.positionalArgs + (positionals calls).length ∧
    (t.truncateExisting = true ↔ u.truncateExisting = true ∨ ∃ call ∈ calls, call.1 = "truncate-existing".toList) ∧
    (∀ call ∈ calls, call.1 ≠ "null".toList) ∧
    t.props.namesizeMax = u.props.namesizeMax ∧ t.props.initialDataOff = u.props.initialDataOff := by
  induction calls generalizing u with
  | nil =>
    cases ran
    exact ⟨rfl,⟨.inl,fun either => either.resolve_right nofun⟩,nofun,rfl,rfl⟩
  | cons call calls ih =>
    obtain ⟨long,value⟩ := call
    obtain ⟨m,first,rest⟩ := runCalls_cons.mp ran
    obtain ⟨count,truncate,known,limit,offset⟩ := ih rest
    have here := paramsProcessOne_counted first
    refine ⟨?_,?_,List.forall_mem_cons.mpr ⟨here.known,known⟩,limit.trans here.limit,offset.trans here.offset⟩
    · rw [count,here.positional]
      by_cases empty : long = []
      · subst empty
        rw [if_pos rfl,positionals_plain,List.length_cons]
        omega
      · rw [if_neg empty,positionals_named empty,Nat.add_zero]
    · rw [truncate,here.truncate,List.exists_mem_cons_iff,or_assoc]

-- Bad values are the only errors of the parsers.
def BadValue (e : Arguments.Error) : Prop := ∃ value expected, e = .invalidValue value expected

theorem parseOr_bad (failed : parseOr s expected = .error e) : BadValue e := by
  unfold parseOr at failed
  split at failed
  · cases failed
  · cases failed
    exact ⟨_,_,rfl⟩

theorem mapM_error {f : α → Except ε β} {list : List α} (failed : list.mapM f = .error e) : ∃ a, f a = .error e := by
  induction list with
  | nil => cases failed
  | cons a rest ih =>
    rw [List.mapM_cons] at failed
    cases here : f a with
    | error other =>
      rw [here] at failed
      cases failed
      exact ⟨a,here⟩
    | ok b =>
      cases later : rest.mapM f with
      | error other =>
        rw [here,later] at failed
        cases failed
        exact ih later
      | ok bs =>
        rw [here,later] at failed
        cases failed

theorem parseOwner_bad (failed : parseOwner value = .error e) : BadValue e := by
  unfold parseOwner at failed
  cases ids : (value.splitOn ':').mapM fun id => parseOr id "uid/gid must be an integer" with
  | error other =>
    rw [ids] at failed
    cases failed
    obtain ⟨id,bad⟩ := mapM_error ids
    exact parseOr_bad bad
  | ok list =>
    rw [ids] at failed
    change ownerOf value list = .error e at failed
    unfold ownerOf at failed
    split at failed
    · cases failed
    · cases failed
      exact ⟨_,_,rfl⟩

theorem paramsProcessOne_decided (long : Str) (value : Option Str) :
    Eff.FailsOnly (fun e => ∀ n, e ≠ .expectedValue n) (paramsProcessOne long value) := by
  have unwrapped : Eff.FailsOnly (fun e => ∀ n, e ≠ .expectedValue n) (unwrapParam value) := by
    cases value with
    | none => exact .fail nofun
    | some v => exact .pure
  have other : ∀ e, BadValue e → ∀ n, e ≠ .expectedValue n := by
    rintro _ ⟨_,_,rfl⟩ n
    exact nofun
  unfold paramsProcessOne
  split
  · exact .update
  · split
    · exact .bind unwrapped fun _ => .bind (.ofExcept fun e failed => other e (parseOr_bad failed)) fun _ => .update
    · split
      · exact .bind unwrapped fun _ => .bind (.ofExcept fun e failed => other e (parseOr_bad failed)) fun _ => .update
      · split
        · exact .bind unwrapped fun _ => .bind (.ofExcept fun e failed => other e (parseOwner_bad failed)) fun _ => .update
        · split
          · exact .update
          · split
            · exact .fail nofun
            · exact .fail nofun

theorem paramsProcess_ok (accepted : paramsProcess args = .ok (path,truncate,props)) :
    ∃ t, (setArguments args dracutParams paramsProcessOne).run {} = (.ok (),t) ∧ t.positionalArgs = 1 ∧
      path = Utf8.encode (args.getLastD []) ∧ truncate = t.truncateExisting ∧ props = t.props := by
  unfold paramsProcess at accepted
  cases ran : (setArguments args dracutParams paramsProcessOne).run {} with
  | mk result t =>
    rw [ran] at accepted
    cases result with
    | error e => cases accepted
    | ok done =>
      dsimp only at accepted
      split at accepted
      · cases accepted
      · rename_i one
        cases accepted
        exact ⟨t,rfl,not_not.mp one,rfl,rfl,rfl⟩

theorem paramsProcess_calls (accepted : paramsProcess args = .ok (path,truncate,props)) :
    ∃ calls t, Reads dracutParams .top args calls ∧ (runCalls paramsProcessOne calls).run {} = (.ok (),t) ∧ t.positionalArgs = 1 ∧
      path = Utf8.encode (args.getLastD []) ∧ truncate = t.truncateExisting ∧ props = t.props := by
  obtain ⟨t,ran,rest⟩ := paramsProcess_ok accepted
  obtain ⟨calls,reads,called⟩ := (parseFrom_agrees dracutParams_plain paramsProcessOne_decided .top args {} t).mp ran
  exact ⟨calls,t,reads,called,rest⟩

-- The output is the one positional argument, unless an argument names nothing.
-- Its file is emptied where the flag asks for it, and no command line with the
-- flag for null delimiters is accepted.
theorem paramsProcess_output (accepted : paramsProcess args = .ok (path,truncate,props)) (named : ∀ arg ∈ args, ¬Nameless arg) :
    ∃ calls output, Reads dracutParams .top args calls ∧ positionals calls = [some output] ∧ path = Utf8.encode output ∧
      (truncate = true ↔ ∃ call ∈ calls, call.1 = "truncate-existing".toList) ∧ ∀ call ∈ calls, call.1 ≠ "null".toList := by
  obtain ⟨calls,t,reads,called,one,rfl,rfl,_⟩ := paramsProcess_calls accepted
  obtain ⟨count,truncate,known,_⟩ := runCalls_counted called
  obtain ⟨value,single⟩ := List.length_eq_one_iff.mp (show (positionals calls).length = 1 by rw [← one,count]; exact (Nat.zero_add _).symm)
  obtain ⟨output,last,rfl⟩ := Option.map_eq_some_iff.mp (reads_last reads named nofun single)
  refine ⟨calls,output,reads,single,?_,truncate.trans ⟨fun either => either.resolve_left nofun,.inr⟩,known⟩
  rw [List.getLastD_eq_getLast?,last]
  rfl

theorem output_last : ∃ calls output, Reads dracutParams .top ["--mtime".toList,"7".toList,"out".toList] calls ∧
    positionals calls = [some output] ∧ Utf8.encode "out".toList = Utf8.encode output := by
  have accepted : paramsProcess ["--mtime".toList,"7".toList,"out".toList] = .ok (Utf8.encode "out".toList,false,{fixedMtime:=some 7}) := by
    decide +kernel
  have named : ∀ arg ∈ ["--mtime".toList,"7".toList,"out".toList], ¬Nameless arg := by
    have others : ∀ arg ∈ ["--mtime".toList,"7".toList,"out".toList], arg.any (· != '-') = true := by decide
    exact fun arg inside => nameless_other (others arg inside)
  obtain ⟨calls,output,reads,single,path,_⟩ := paramsProcess_output accepted named
  exact ⟨calls,output,reads,single,path⟩

-- Three dashes take the output for their value, and the last argument is a flag.
example : paramsProcess ["---".toList,"out".toList,"--truncate-existing".toList] =
    .ok (Utf8.encode "--truncate-existing".toList,true,{}) := by decide +kernel

end Rapido.DracutCpio

import Rapido.CutLog

-- What elf_deps returns for a file, and what it leaves in dups_filter.
namespace Rapido.Cut
open Eff

-- The DT_NEEDED strings of a file.
def neededOf (file : ElfStream) : List Name :=
  match file.dynamic,file.dynamicSymbolTable with
  | .ok (some dynamics),.ok (some strs) => (offsets .needed dynamics).filterMap strs
  | _,_ => []

-- The DT_RUNPATH strings of a file, as elf_deps collects them.
def runpathsOf (file : ElfStream) : List Name :=
  match file.dynamic,file.dynamicSymbolTable with
  | .ok (some dynamics),.ok (some strs) => (offsets .runpath dynamics).filterMap strs
  | _,_ => []

-- What path_stat is asked for a needed name: under the file's own DT_RUNPATH
-- list first, then under LIB_PATHS.
def depEnt (runpaths : List Name) (n : Name) : GatherEnt := if runpaths.length > 0 then .libRunPath n runpaths else .lib n

-- What is read at each DT_NEEDED offset, none where nothing can be read.
def neededStrings (file : ElfStream) : List (Option Name) :=
  match file.dynamic,file.dynamicSymbolTable with
  | .ok (some dynamics),.ok (some strs) => (offsets .needed dynamics).map strs
  | _,_ => []

-- The names up to the first that cannot be read.
def namesRead : List (Option Name) → List Name
  | some n :: rest => n :: namesRead rest
  | _ => []

-- dups_filter after some names, and those of them that it lets through.
def filtered : List Name → List Name → List Name
  | seen,[] => seen
  | seen,n :: rest => if n ∈ seen then filtered seen rest else filtered (n :: seen) rest
def passing : List Name → List Name → List Name
  | _,[] => []
  | seen,n :: rest => if n ∈ seen then passing seen rest else n :: passing (n :: seen) rest

theorem mem_filtered (seen names : List Name) : n ∈ filtered seen names ↔ n ∈ seen ∨ n ∈ names := by
  induction names generalizing seen with
  | nil => simp [filtered]
  | cons first rest ih =>
    unfold filtered
    split
    · rename_i old
      rw [ih,List.mem_cons]
      constructor
      · exact fun either => either.imp_right .inr
      · rintro (before | rfl | later)
        · exact .inl before
        · exact .inl old
        · exact .inr later
    · rw [ih,List.mem_cons,List.mem_cons]
      tauto

theorem mem_passing (seen names : List Name) : n ∈ passing seen names ↔ n ∈ names ∧ n ∉ seen := by
  induction names generalizing seen with
  | nil => simp [passing]
  | cons first rest ih =>
    unfold passing
    split
    · rename_i old
      rw [ih,List.mem_cons]
      constructor
      · exact fun both => ⟨.inr both.1,both.2⟩
      · rintro ⟨rfl | later,fresh⟩
        · exact absurd old fresh
        · exact ⟨later,fresh⟩
    · rename_i fresh
      rw [List.mem_cons,ih,List.mem_cons,List.mem_cons]
      by_cases same : n = first
      · simp [same,fresh]
      · simp [same]

theorem passing_nodup (seen names : List Name) : (passing seen names).Nodup := by
  induction names generalizing seen with
  | nil => exact List.nodup_nil
  | cons first rest ih =>
    unfold passing
    split
    · exact ih seen
    · refine List.nodup_cons.mpr ⟨fun again => ?_,ih _⟩
      exact ((mem_passing _ _).mp again).2 List.mem_cons_self

-- Every name that is read passes through the filter; one that cannot be read
-- makes the call fail with the filter as it is by then.
theorem neededEnts_run (runpaths : List Name) (strs : Nat → Option Name) (offs : List Nat) (seen : List Name) :
    (neededEnts runpaths strs offs).run seen =
      (if none ∈ offs.map strs then .error (.ofKind .invalidData)
        else .ok ((passing seen (namesRead (offs.map strs))).map (depEnt runpaths)),
        filtered seen (namesRead (offs.map strs))) := by
  induction offs generalizing seen with
  | nil => rfl
  | cons off rest ih =>
    unfold neededEnts
    cases found : strs off with
    | none => simp [namesRead,found,filtered]
    | some n =>
      simp only [read_bind_run,List.map_cons,found,namesRead,List.mem_cons,reduceCtorEq,false_or]
      by_cases old : n ∈ seen
      · simp only [old,decide_true,if_true,ih,filtered,passing]
      · simp only [old,decide_false,Bool.false_eq_true,if_false,update_bind_run,filtered,passing]
        rw [bind_run,ih]
        by_cases bad : none ∈ rest.map strs
        · rw [if_pos bad,if_pos bad]
        · rw [if_neg bad,if_neg bad]
          rfl

-- A file without names, without tables or no ELF file at all leaves the filter
-- alone.
theorem elfDeps_run (opened : host.elfOpen bytes = some file) (seen : List Name) :
    (∃ e, (elfDeps host bytes).run seen = (.error e,seen) ∧ neededStrings file = []) ∨
      (elfDeps host bytes).run seen =
        (if none ∈ neededStrings file then .error (.ofKind .invalidData)
          else .ok ((passing seen (namesRead (neededStrings file))).map (depEnt (runpathsOf file))),
          filtered seen (namesRead (neededStrings file))) := by
  unfold elfDeps neededStrings runpathsOf
  rw [opened]
  dsimp only
  rcases file.dynamic with e | dynamics
  · exact .inl ⟨_,rfl,rfl⟩
  · cases dynamics with
    | none => exact .inr rfl
    | some dynamics =>
      rcases file.dynamicSymbolTable with e | strs
      · exact .inl ⟨_,rfl,rfl⟩
      · cases strs with
        | none => exact .inr rfl
        | some strs => exact .inr (neededEnts_run _ _ _ _)

theorem elfDeps_closed (unopened : host.elfOpen bytes = none) (seen : List Name) :
    (elfDeps host bytes).run seen = (.error (.ofKind .invalidInput),seen) := by
  unfold elfDeps
  rw [unopened]
  rfl

theorem namesRead_all (readable : none ∉ strings) : strings = (namesRead strings).map some := by
  induction strings with
  | nil => rfl
  | cons first rest ih =>
    cases first with
    | none => exact absurd List.mem_cons_self readable
    | some n =>
      rw [namesRead,List.map_cons,← ih fun bad => readable (List.mem_cons_of_mem _ bad)]

theorem neededOf_strings (file : ElfStream) : neededOf file = (neededStrings file).filterMap id := by
  unfold neededOf neededStrings
  split
  · rw [List.filterMap_map]
    rfl
  · rfl

theorem namesRead_needed (readable : none ∉ neededStrings file) : namesRead (neededStrings file) = neededOf file := by
  rw [neededOf_strings]
  nth_rewrite 2 [namesRead_all readable]
  simp

theorem elfDeps_ok (ran : (elfDeps host bytes).run seen = (.ok deps,after)) : ∃ file, host.elfOpen bytes = some file ∧
    none ∉ neededStrings file ∧ deps = (passing seen (neededOf file)).map (depEnt (runpathsOf file)) ∧
    after = filtered seen (neededOf file) := by
  cases opened : host.elfOpen bytes with
  | none =>
    rw [elfDeps_closed opened] at ran
    cases ran
  | some file =>
    refine ⟨file,rfl,?_⟩
    rcases elfDeps_run opened seen with ⟨e,failed,_⟩ | whole
    · rw [failed] at ran
      cases ran
    · rw [whole] at ran
      by_cases bad : none ∈ neededStrings file
      · rw [if_pos bad] at ran
        cases ran
      · rw [if_neg bad,namesRead_needed bad] at ran
        cases ran
        exact ⟨bad,rfl,rfl⟩

end Rapido.Cut

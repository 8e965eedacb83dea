import Rapido.ElfClosure

-- What a file that cannot be parsed leaves behind, and where the libraries of
-- one that can are looked for.
namespace Rapido.Cut
open UnixPath Cpio Eff

theorem namesRead_front (front : List Name) (back : List (Option Name)) : namesRead (front.map some ++ none :: back) = front := by
  induction front with
  | nil => rfl
  | cons n rest ih => rw [List.map_cons,List.cons_append,namesRead,ih]

theorem namesRead_cut (bad : none ∈ strings) : ∃ back, strings = (namesRead strings).map some ++ none :: back := by
  induction strings with
  | nil => cases bad
  | cons first rest ih =>
    cases first with
    | none => exact ⟨rest,rfl⟩
    | some n =>
      obtain ⟨back,equal⟩ := ih ((List.mem_cons.mp bad).resolve_left nofun)
      refine ⟨back,?_⟩
      rw [namesRead,List.map_cons,List.cons_append,← equal]

theorem passing_same (same : ∀ n, n ∈ seen ↔ n ∈ other) (names : List Name) : passing seen names = passing other names := by
  induction names generalizing seen other with
  | nil => rfl
  | cons first rest ih =>
    have pushed : ∀ n, n ∈ first :: seen ↔ n ∈ first :: other := fun n => by rw [List.mem_cons,List.mem_cons,same n]
    unfold passing
    simp only [same first,ih same,ih pushed]

-- The filter matters as a set only.
theorem elfDeps_same (same : ∀ n, n ∈ seen ↔ n ∈ other) (host : Host) (bytes : List UInt8) :
    ((elfDeps host bytes).run seen).1 = ((elfDeps host bytes).run other).1 := by
  unfold elfDeps
  split
  · rfl
  · split
    · rfl
    · rfl
    · split
      · rfl
      · rfl
      · rw [neededEnts_run,neededEnts_run,passing_same same]

-- A call that fails leaves the filter as it was, so that any file that is parsed
-- later gives the same entries as without the call.
def Traceless (host : Host) (bytes : List UInt8) (seen : List Name) : Prop :=
  ∀ e after, (elfDeps host bytes).run seen = (.error e,after) →
    (∀ n, n ∈ after ↔ n ∈ seen) ∧ ∀ later, ((elfDeps host later).run after).1 = ((elfDeps host later).run seen).1

theorem failed_parse_traceless (host : Host) (bytes : List UInt8) (seen : List Name) : Traceless host bytes seen ↔
    ∀ file, host.elfOpen bytes = some file → ∀ (front : List Name) back,
      neededStrings file = front.map some ++ none :: back → ∀ n ∈ front, n ∈ seen := by
  constructor
  · intro traceless file opened front back shape n inside
    rcases elfDeps_run opened seen with ⟨e,_,empty⟩ | whole
    · rw [shape] at empty
      simp at empty
    · have bad : none ∈ neededStrings file := by simp [shape]
      rw [if_pos bad,shape,namesRead_front] at whole
      exact ((traceless _ _ whole).1 n).mp ((mem_filtered _ _).mpr (.inr inside))
  · intro known e after failed
    have same : ∀ n, n ∈ after ↔ n ∈ seen := by
      cases opened : host.elfOpen bytes with
      | none =>
        rw [elfDeps_closed opened] at failed
        cases failed
        exact fun _ => Iff.rfl
      | some file =>
        rcases elfDeps_run opened seen with ⟨e',alone,_⟩ | whole
        · rw [alone] at failed
          cases failed
          exact fun _ => Iff.rfl
        · rw [whole] at failed
          by_cases bad : none ∈ neededStrings file
          · rw [if_pos bad] at failed
            cases failed
            obtain ⟨back,shape⟩ := namesRead_cut bad
            intro n
            rw [mem_filtered]
            exact ⟨fun either => either.elim id (known file opened _ back shape n),.inl⟩
          · rw [if_neg bad] at failed
            cases failed
    exact ⟨same,fun later => elfDeps_same same host later⟩

-- "a" needs "l" and a string outside its table, "b" needs "l".
def tornHost : Host := {bareHost with
  elfOpen := fun bytes =>
    if bytes = asPath "a" then some {needs "l" [] with dynamic := .ok (some [(.needed,0),(.needed,9)])}
    else if bytes = asPath "b" then some (needs "l" [])
    else none}

theorem failed_parse_keeps_name :
    (elfDeps tornHost (asPath "a")).run [] = (.error (.ofKind .invalidData),[asPath "l"]) ∧
    (elfDeps tornHost (asPath "b")).run [asPath "l"] = (.ok [],[asPath "l"]) ∧
    (elfDeps tornHost (asPath "b")).run [] = (.ok [.lib (asPath "l")],[asPath "l"]) ∧ ¬Traceless tornHost (asPath "a") [] := by
  have first : (elfDeps tornHost (asPath "a")).run [] = (.error (.ofKind .invalidData),[asPath "l"]) := by decide +kernel
  refine ⟨first,by decide +kernel,by decide +kernel,fun traceless => ?_⟩
  have old := ((traceless _ _ first).1 (asPath "l")).mp List.mem_cons_self
  cases old

abbrev colon : UInt8 := 58

-- The directories of all strings in order, each string a list with colons.
def runpathDirs (runpaths : List Name) : List Path := runpaths.flatMap fun r => r.splitOn colon

-- The first candidate dir/name that exists, or NotFound if there is none.
def FirstFound (fs : FileSystem) (n : Name) (dirs : List Path) : Except IoError Fsent → Prop
  | .ok got => ∃ front dir back, dirs = front ++ dir :: back ∧ got.path = join dir n ∧
      fs.symlinkMetadata (join dir n) = .ok got.md ∧ ∀ d ∈ front, ∃ e, fs.symlinkMetadata (join d n) = .error e
  | .error e => e.kind = .notFound ∧ ∀ d ∈ dirs, ∃ e, fs.symlinkMetadata (join d n) = .error e

theorem firstStat_found (found : firstStat fs n dirs = some got) (e : List Path) : FirstFound fs n (dirs ++ e) (.ok got) := by
  induction dirs with
  | nil => cases found
  | cons dir rest ih =>
    unfold firstStat at found
    split at found
    · rename_i md stat
      cases found
      exact ⟨[],dir,rest ++ e,rfl,rfl,stat,nofun⟩
    · rename_i e' failed
      obtain ⟨front,d,back,shape,path,stat,before⟩ := ih found
      refine ⟨dir :: front,d,back,by rw [List.cons_append,shape,List.cons_append],path,stat,fun other inside => ?_⟩
      rcases List.mem_cons.mp inside with rfl | later
      · exact ⟨e',failed⟩
      · exact before other later

theorem firstStat_none (none : firstStat fs n dirs = none) : ∀ d ∈ dirs, ∃ e, fs.symlinkMetadata (join d n) = .error e := by
  induction dirs with
  | nil => exact nofun
  | cons dir rest ih =>
    unfold firstStat at none
    split at none
    · cases none
    · rename_i e failed
      intro d inside
      rcases List.mem_cons.mp inside with rfl | later
      · exact ⟨e,failed⟩
      · exact ih none d later

theorem FirstFound.after (missing : ∀ d ∈ front, ∃ e, fs.symlinkMetadata (join d n) = .error e) (found : FirstFound fs n dirs result) :
    FirstFound fs n (front ++ dirs) result := by
  cases result with
  | error e =>
    refine ⟨found.1,fun d inside => ?_⟩
    rcases List.mem_append.mp inside with first | later
    · exact missing d first
    · exact found.2 d later
  | ok got =>
    obtain ⟨before,dir,back,shape,path,stat,none⟩ := found
    refine ⟨front ++ before,dir,back,by rw [shape,List.append_assoc],path,stat,fun d inside => ?_⟩
    rcases List.mem_append.mp inside with first | later
    · exact missing d first
    · exact none d later

theorem statByName_first (plain : slash ∉ n) : FirstFound fs n dirs (statByName fs dirs missing n) := by
  unfold statByName
  rw [if_neg plain]
  cases found : firstStat fs n dirs with
  | some got =>
    have first := firstStat_found found []
    rwa [List.append_nil] at first
  | none => exact ⟨rfl,firstStat_none found⟩

-- The search as it is: each string is one directory.
theorem depEnt_first (plain : slash ∉ n) (runpaths : List Name) (fs : FileSystem) :
    FirstFound fs n (runpaths ++ LIB_PATHS) (pathStat fs (depEnt runpaths n)) := by
  unfold depEnt
  split
  · unfold pathStat
    dsimp only
    rw [if_neg plain]
    cases found : firstStat fs n runpaths with
    | some got => exact firstStat_found found LIB_PATHS
    | none => exact (statByName_first plain).after (firstStat_none found)
  · rename_i none
    have empty : runpaths = [] := List.length_eq_zero_iff.mp (by omega)
    rw [empty]
    exact statByName_first plain

theorem runpathDirs_single (single : ∀ r ∈ runpaths, colon ∉ r) : runpathDirs runpaths = runpaths := by
  induction runpaths with
  | nil => rfl
  | cons r rest ih =>
    have whole : r.splitOn colon = [r] := List.splitOn_eq_singleton (single r List.mem_cons_self)
    have others := ih fun s inside => single s (List.mem_cons_of_mem _ inside)
    unfold runpathDirs at others ⊢
    rw [List.flatMap_cons,whole,others]
    rfl

theorem colon_split (inside : dir ∈ List.splitOn colon r) : colon ∉ dir := by
  induction r generalizing dir with
  | nil =>
    rw [List.splitOn_nil,List.mem_singleton] at inside
    simp [inside]
  | cons b rest ih =>
    rw [List.splitOn_cons_eq_if_modifyHead] at inside
    split at inside
    · rcases List.mem_cons.mp inside with rfl | later
      · exact List.not_mem_nil
      · exact ih later
    · rename_i other
      cases pieces : rest.splitOn colon with
      | nil => exact absurd pieces (List.splitOn_ne_nil colon rest)
      | cons first more =>
        rw [pieces,List.modifyHead_cons] at inside
        rw [pieces] at ih
        rcases List.mem_cons.mp inside with rfl | later
        · intro bad
          rcases List.mem_cons.mp bad with rfl | deeper
          · exact other (by simp)
          · exact ih List.mem_cons_self deeper
        · exact ih (List.mem_cons_of_mem _ later)

-- Two directories that lead to one candidate differ in a last slash only.
theorem join_colon (plain : slash ∉ n) (same : join dir n = join r n) (inside : colon ∈ r) : colon ∈ dir := by
  have relative : isAbsolute n = false := by
    apply Bool.eq_false_iff.mpr
    intro absolute
    obtain ⟨rest,rfl⟩ := isAbsolute_iff.mp absolute
    exact plain List.mem_cons_self
  have shape : ∀ p, ∃ last, (last = [] ∨ last = [slash]) ∧ join p n = p ++ last ++ n := by
    intro p
    unfold join
    rw [if_neg (by simp [relative])]
    split
    · exact ⟨[],.inl rfl,by simp⟩
    · exact ⟨[slash],.inr rfl,by simp⟩
  obtain ⟨last,short,left⟩ := shape dir
  obtain ⟨last',_,right⟩ := shape r
  rw [left,right] at same
  have front : dir ++ last = r ++ last' := List.append_cancel_right same
  have member : colon ∈ dir ++ last := by
    rw [front]
    exact List.mem_append_left _ inside
  refine (List.mem_append.mp member).resolve_right fun trailing => ?_
  rcases short with rfl | rfl
  · cases trailing
  · exact absurd (List.mem_singleton.mp trailing) (by decide)

theorem libPaths_single : ∀ dir ∈ LIB_PATHS, colon ∉ dir := by decide +kernel

-- A machine on which nothing exists but one path.
def onlyPath (p : Path) : FileSystem := {bareHost.toFileSystem with
  symlinkMetadata := fun q => if q = p then .ok (plainMd (S_IFREG ||| 0o644) 1) else .error (.ofKind .notFound)}

theorem onlyPath_stat (found : (onlyPath p).symlinkMetadata q = .ok md) : q = p := by
  dsimp only [onlyPath] at found
  split at found
  · rename_i same
    exact same
  · cases found

-- Where a string has a colon, the code takes the whole string for a directory.
theorem colon_missed (plain : slash ∉ n) (inside : r ∈ runpaths) (bad : colon ∈ r) :
    ¬FirstFound (onlyPath (join r n)) n (runpathDirs runpaths ++ LIB_PATHS) (pathStat (onlyPath (join r n)) (depEnt runpaths n)) := by
  have actual := depEnt_first plain runpaths (onlyPath (join r n))
  intro claimed
  cases result : pathStat (onlyPath (join r n)) (depEnt runpaths n) with
  | error e =>
    rw [result] at actual
    obtain ⟨e',missing⟩ := actual.2 r (List.mem_append_left _ inside)
    simp [onlyPath] at missing
  | ok got =>
    rw [result] at claimed
    obtain ⟨front,dir,back,shape,_,stat,_⟩ := claimed
    have same := onlyPath_stat stat
    have member : dir ∈ runpathDirs runpaths ++ LIB_PATHS := by simp [shape]
    have present := join_colon plain same bad
    rcases List.mem_append.mp member with piece | standard
    · obtain ⟨s,_,split⟩ := List.mem_flatMap.mp piece
      exact colon_split split present
    · exact libPaths_single dir standard present

def GatherEnt.libName : GatherEnt → Option Name
  | .lib n => some n
  | .libRunPath n _ => some n
  | _ => none

theorem depEnt_name (runpaths : List Name) (n : Name) : (depEnt runpaths n).libName = some n := by
  unfold depEnt
  split <;> rfl

-- elf_deps emits one entry for a needed name. It is searched for as the ELF
-- convention says on every machine if no string is a list of several directories.
theorem runpath_search (opened : host.elfOpen bytes = some file) (parsed : (elfDeps host bytes).run seen = (.ok deps,after))
    (needed : n ∈ neededOf file) (new : n ∉ seen) (plain : slash ∉ n) :
    ∃ ent, deps.filter (fun e => e.libName == some n) = [ent] ∧
      ((∀ fs, FirstFound fs n (runpathDirs (runpathsOf file) ++ LIB_PATHS) (pathStat fs ent)) ↔
        ∀ r ∈ runpathsOf file, colon ∉ r) := by
  obtain ⟨file',again,_,rfl,_⟩ := elfDeps_ok parsed
  rw [opened] at again
  cases again
  refine ⟨depEnt (runpathsOf file) n,?_,?_,?_⟩
  · have once : (passing seen (neededOf file)).count n = 1 :=
      List.count_eq_one_of_mem (passing_nodup _ _) ((mem_passing _ _).mpr ⟨needed,new⟩)
    have own : ((fun e : GatherEnt => e.libName == some n) ∘ depEnt (runpathsOf file)) = (· == n) := by
      funext m
      simp [depEnt_name]
    rw [List.filter_map,own,List.filter_beq,once]
    rfl
  · intro all r inside bad
    exact colon_missed plain inside bad (all _)
  · intro single fs
    rw [runpathDirs_single single]
    exact depEnt_first plain _ fs

theorem runpath_search_single : ∃ ent, [libX].filter (fun e => e.libName == some (asPath "l")) = [ent] ∧
    ∀ fs, FirstFound fs (asPath "l") (runpathDirs [asPath "/x"] ++ LIB_PATHS) (pathStat fs ent) := by
  have runpaths : runpathsOf (needs "l" [asPath "/x"]) = [asPath "/x"] := by decide +kernel
  have parsed : (elfDeps libHost (asPath "a")).run [] = (.ok [libX],[asPath "l"]) := by decide +kernel
  have opened : libHost.elfOpen (asPath "a") = some (needs "l" [asPath "/x"]) := rfl
  have needed : asPath "l" ∈ neededOf (needs "l" [asPath "/x"]) := by decide +kernel
  have plain : slash ∉ asPath "l" := by decide +kernel
  obtain ⟨ent,only,search⟩ := runpath_search opened parsed needed nofun plain
  rw [runpaths] at search
  exact ⟨ent,only,search.mpr (by decide +kernel)⟩

-- A program that needs "l" with one DT_RUNPATH string for two directories, and
-- a machine that has "l" in the first of them.
def twoDirs : Name := asPath "/x:/y"
def listHost : Host := {bareHost with
  symlinkMetadata := fun p => if p = asPath "/x/l" then .ok (oneByte (S_IFREG ||| 0o644)) else .error (.ofKind .notFound)
  elfOpen := fun bytes => if bytes = asPath "a" then some (needs "l" [twoDirs]) else none
  cwd_absolute := root_absolute
  readDir_names := @lists_nothing
  canonicalize_absolute := @resolves_nothing}

def notFoundIn : Except IoError Fsent → Bool
  | .ok _ => false
  | .error e => e.kind == .notFound

theorem runpath_list_missed :
    (elfDeps listHost (asPath "a")).run [] = (.ok [.libRunPath (asPath "l") [twoDirs]],[asPath "l"]) ∧
    runpathDirs [twoDirs] = [asPath "/x",asPath "/y"] ∧
    notFoundIn (pathStat listHost.toFileSystem (.libRunPath (asPath "l") [twoDirs])) = true ∧
    ¬FirstFound listHost.toFileSystem (asPath "l") (runpathDirs [twoDirs] ++ LIB_PATHS)
      (pathStat listHost.toFileSystem (.libRunPath (asPath "l") [twoDirs])) := by
  have missed : notFoundIn (pathStat listHost.toFileSystem (.libRunPath (asPath "l") [twoDirs])) = true := by decide +kernel
  have dirs : runpathDirs [twoDirs] = [asPath "/x",asPath "/y"] := by decide +kernel
  have there : listHost.symlinkMetadata (join (asPath "/x") (asPath "l")) = .ok (oneByte (S_IFREG ||| 0o644)) := by decide +kernel
  refine ⟨by decide +kernel,dirs,missed,fun found => ?_⟩
  rw [dirs] at found
  cases result : pathStat listHost.toFileSystem (.libRunPath (asPath "l") [twoDirs]) with
  | ok got =>
    rw [result] at missed
    cases missed
  | error e =>
    rw [result] at found
    obtain ⟨e',failed⟩ := found.2 (asPath "/x") (by simp)
    rw [there] at failed
    cases failed

end Rapido.Cut

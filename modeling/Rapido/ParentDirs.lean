import Rapido.CutInvariant
import Rapido.PathClimbs
import Mathlib.Data.List.Infix

-- The directories that gather_archive_dirs archives on the way to a path.
namespace Rapido.Cut
open UnixPath Cpio Eff

def endsNormal (front : List Component) : Bool := front.getLast?.any Component.isNormal

-- The prefixes of some components that end in a name, each normalised.
def normalPrefixes (cs : List Component) : List (List Name) := (cs.inits.filter endsNormal).map lexNormal

theorem inits_filled (cs : List α) : ∃ more, cs.inits = [] :: more ∧ ∀ front ∈ more, front ≠ [] := by
  cases cs with
  | nil => exact ⟨[],rfl,nofun⟩
  | cons c rest =>
    refine ⟨_,List.inits_cons c rest,fun front inside => ?_⟩
    obtain ⟨tail,_,rfl⟩ := List.mem_map.mp inside
    exact List.cons_ne_nil c tail

theorem endsNormal_cons (filled : front ≠ []) : endsNormal (c :: front) = endsNormal front := by
  cases front with
  | nil => exact absurd rfl filled
  | cons d front => rfl

-- A first component adds the prefix that consists of it alone.
theorem filter_inits (c : Component) (rest : List Component) :
    (c :: rest).inits.filter endsNormal =
      (if c.isNormal then [[c]] else []) ++ (rest.inits.filter endsNormal).map (c :: ·) := by
  obtain ⟨more,split,filled⟩ := inits_filled rest
  have tails : (more.map (c :: ·)).filter endsNormal = (more.filter endsNormal).map (c :: ·) := by
    rw [List.filter_map]
    refine congrArg (List.map _) (List.filter_congr fun front inside => ?_)
    exact endsNormal_cons (filled front inside)
  rw [List.inits_cons,split,List.map_cons]
  have empty : endsNormal [] = false := rfl
  have single : endsNormal [c] = c.isNormal := rfl
  simp only [List.filter_cons,empty,single,tails,Bool.false_eq_true,if_false]
  split <;> rfl

theorem walkDirs_prefixes (here : List Name) (cs : List Component) :
    walkDirs here cs = (cs.inits.filter endsNormal).map (List.foldl lexPush here) := by
  induction cs generalizing here with
  | nil => rfl
  | cons c rest ih =>
    rw [filter_inits,List.map_append,List.map_map]
    cases c with
    | rootDir => exact ih here
    | curDir => exact ih here
    | parentDir => exact ih here.dropLast
    | normal n => exact congrArg _ (ih (here ++ [n]))

-- A directory is archived before what is below it.
def ParentsFirst (seen : List (List Component)) (dirs : List (List Name)) : Prop :=
  ∀ before names after, dirs = before ++ names :: after →
    names.dropLast = [] ∨ rootComponents names.dropLast ∈ seen ∨ names.dropLast ∈ before

theorem walkDirs_parents (here : List Name) (cs : List Component) (split : walkDirs here cs = before ++ names :: after) :
    names.dropLast <+: here ∨ names.dropLast ∈ before := by
  induction cs generalizing here before with
  | nil => cases before <;> cases split
  | cons c rest ih =>
    cases c with
    | rootDir => exact ih here split
    | curDir => exact ih here split
    | parentDir => exact (ih here.dropLast split).imp_left fun inside => inside.trans (List.dropLast_prefix here)
    | normal n =>
      cases before with
      | nil =>
        obtain ⟨rfl,_⟩ := List.cons.inj split
        rw [List.dropLast_concat]
        exact .inl List.prefix_rfl
      | cons first before =>
        obtain ⟨rfl,more⟩ := List.cons.inj split
        rcases ih (here ++ [n]) more with inside | earlier
        · rcases List.prefix_concat_iff.mp inside with same | shorter
          · exact .inr (same ▸ List.mem_cons_self)
          · exact .inl shorter
        · exact .inr (List.mem_cons_of_mem _ earlier)

-- The directories of a list that are not in the set, each at its first place.
def newDirs (seen : List (List Component)) (dirs : List (List Name)) : List (List Name) :=
  (dirs.filter fun names => decide (rootComponents names ∉ seen)).eraseDups

theorem rootComponents_inj (same : rootComponents a = rootComponents b) : a = b := by
  have names := congrArg lexNormal same
  unfold rootComponents at names
  rwa [lexNormal_pushed,lexNormal_pushed] at names

theorem newDirs_old (old : rootComponents names ∈ seen) : newDirs seen (names :: dirs) = newDirs seen dirs := by
  unfold newDirs
  rw [List.filter_cons_of_neg (by simpa using old)]

theorem newDirs_new (new : rootComponents names ∉ seen) :
    newDirs seen (names :: dirs) = names :: newDirs (rootComponents names :: seen) dirs := by
  unfold newDirs
  rw [List.filter_cons_of_pos (by simpa using new),List.eraseDups_cons,List.filter_filter]
  refine congrArg (fun kept => names :: List.eraseDups kept) (List.filter_congr fun other _ => ?_)
  by_cases same : other = names
  · simp [same]
  · have apart : rootComponents other ≠ rootComponents names := fun equal => same (rootComponents_inj equal)
    simp [same,apart]

theorem mem_newDirs : names ∈ newDirs seen dirs ↔ names ∈ dirs ∧ rootComponents names ∉ seen := by
  unfold newDirs
  rw [List.mem_eraseDups,List.mem_filter,decide_eq_true_iff]

theorem nodup_newDirs (seen : List (List Component)) (dirs : List (List Name)) : (newDirs seen dirs).Nodup := by
  induction dirs generalizing seen with
  | nil => exact List.nodup_nil
  | cons names dirs ih =>
    by_cases old : rootComponents names ∈ seen
    · rw [newDirs_old old]
      exact ih seen
    · rw [newDirs_new old]
      refine List.nodup_cons.mpr ⟨fun again => ?_,ih _⟩
      exact (mem_newDirs.mp again).2 List.mem_cons_self

-- Dropping what has been seen keeps the order, since it only drops parents that
-- are in the set or have come before.
theorem ParentsFirst.newDirs (ordered : ParentsFirst seen dirs) : ParentsFirst seen (newDirs seen dirs) := by
  induction dirs generalizing seen with
  | nil => exact ordered
  | cons first dirs ih =>
    have tail : ∀ more, (∀ cs ∈ seen, cs ∈ more) → rootComponents first ∈ more → ParentsFirst more dirs := by
      intro more wider inside before names after split
      rcases ordered (first :: before) names after (by rw [split]; rfl) with top | old | earlier
      · exact .inl top
      · exact .inr (.inl (wider _ old))
      · rcases List.mem_cons.mp earlier with same | earlier
        · exact .inr (.inl (same ▸ inside))
        · exact .inr (.inr earlier)
    by_cases old : rootComponents first ∈ seen
    · rw [newDirs_old old]
      exact ih (tail seen (fun _ h => h) old)
    · rw [newDirs_new old]
      have later := ih (tail (rootComponents first :: seen) (fun _ => List.mem_cons_of_mem _) List.mem_cons_self)
      intro before names after split
      cases before with
      | nil =>
        obtain ⟨rfl,_⟩ := List.cons.inj split
        exact ordered [] first dirs rfl
      | cons head before =>
        obtain ⟨rfl,others⟩ := List.cons.inj split
        rcases later before names after others with top | old | earlier
        · exact .inl top
        · rcases List.mem_cons.mp old with same | old
          · exact .inr (.inr (rootComponents_inj same ▸ List.mem_cons_self))
          · exact .inr (.inl old)
        · exact .inr (.inr (List.mem_cons_of_mem _ earlier))

-- One turn of the loop: a directory that is new is archived.
def dirCall (amd : ArchiveMd) (names : List Name) : Call := .path (rootPath names) amd

def enterDir (amd : ArchiveMd) (names : List Name) : Gather Unit := do
  let new ← insertPath (rootPath names)
  Eff.runIf new (archive (dirCall amd names))

theorem dirsLoop_level (level : climbsFrom here.length rest = false) :
    dirsLoop amd here rest = forEach (enterDir amd) (walkDirs here rest) := by
  induction rest generalizing here with
  | nil => rfl
  | cons c rest ih =>
    cases c with
    | rootDir => exact ih level
    | curDir => exact ih level
    | parentDir =>
      cases here with
      | nil => cases level
      | cons first others =>
        rw [dirsLoop,if_neg (List.cons_ne_nil first others)]
        apply ih
        rw [List.length_dropLast]
        exact level
    | normal n =>
      have next := ih (show climbsFrom (here ++ [n]).length rest = false by rw [List.length_append]; exact level)
      rw [dirsLoop,walkDirs,forEach,enterDir,bind_assoc,next]
      rfl

-- Otherwise the loop comes as far as the ".." that pops the root.
def Stops (here : List Name) (rest front : List Component) : Prop := ∀ amd,
  dirsLoop amd here rest = forEach (enterDir amd) (walkDirs here front) >>= fun _ => .fail (.ofKind .invalidInput)

theorem dirsLoop_climbs (climbs : climbsFrom here.length rest = true) : ∃ front, front <+: rest ∧ Stops here rest front := by
  induction rest generalizing here with
  | nil => cases climbs
  | cons c rest ih =>
    have longer : ∀ {front}, front <+: rest → c :: front <+: c :: rest := fun inside => (List.prefix_cons_inj c).mpr inside
    cases c with
    | rootDir =>
      obtain ⟨front,inside,stops⟩ := ih climbs
      exact ⟨.rootDir :: front,longer inside,stops⟩
    | curDir =>
      obtain ⟨front,inside,stops⟩ := ih climbs
      exact ⟨.curDir :: front,longer inside,stops⟩
    | parentDir =>
      cases here with
      | nil => exact ⟨[],List.nil_prefix,fun _ => rfl⟩
      | cons first others =>
        obtain ⟨front,inside,stops⟩ := ih (show climbsFrom (first :: others).dropLast.length rest = true by
          rw [List.length_dropLast]; exact climbs)
        refine ⟨.parentDir :: front,longer inside,fun amd => ?_⟩
        rw [dirsLoop,if_neg (List.cons_ne_nil first others)]
        exact stops amd
    | normal n =>
      obtain ⟨front,inside,stops⟩ := ih (show climbsFrom (here ++ [n]).length rest = true by rw [List.length_append]; exact climbs)
      refine ⟨.normal n :: front,longer inside,fun amd => ?_⟩
      rw [dirsLoop,walkDirs,forEach,enterDir,bind_assoc,bind_assoc,stops amd]
      rfl

-- The calls for some directories, and nothing else, lead from one state to the other.
def Entered (amd : ArchiveMd) (dirs : List (List Name)) (s t : State) : Prop :=
  ∃ a, (runCalls (dirs.map (dirCall amd))).run s.archive = (.ok (),a) ∧
    t = {s with archive:=a,archived:=s.archived ++ dirs.map (dirCall amd)
                pathsSeen:=(dirs.map rootComponents).reverse ++ s.pathsSeen}

def AllValid (dirs : List (List Name)) : Prop := ∀ names ∈ dirs, ∀ n ∈ names, ValidName n

theorem enterDir_old (valid : ∀ n ∈ names, ValidName n) (old : rootComponents names ∈ s.pathsSeen) :
    (enterDir amd names).run s = (.ok (),s) := by
  rw [enterDir,bind_run_ok (insertPath_old (by rwa [components_rootPath valid]))]
  rfl

theorem enterDir_new (valid : ∀ n ∈ names, ValidName n) (new : rootComponents names ∉ s.pathsSeen) :
    (enterDir amd names).run s = (archive (dirCall amd names)).run {s with pathsSeen:=rootComponents names :: s.pathsSeen} := by
  have shape := components_rootPath valid
  rw [enterDir,bind_run_ok (insertPath_new (by rwa [shape])),shape]
  rfl

theorem enterDirs_ran (valid : AllValid dirs) (ran : (forEach (enterDir amd) dirs).run s = (.ok (),t)) :
    Entered amd (newDirs s.pathsSeen dirs) s t := by
  induction dirs generalizing s with
  | nil =>
    cases ran
    refine ⟨t.archive,rfl,?_⟩
    simp [newDirs]
  | cons names dirs ih =>
    have here := valid names List.mem_cons_self
    have below : AllValid dirs := fun other inside => valid other (List.mem_cons_of_mem _ inside)
    obtain ⟨_,middle,entered,later⟩ := bind_ok.mp ran
    by_cases old : rootComponents names ∈ s.pathsSeen
    · rw [enterDir_old here old] at entered
      cases entered
      rw [newDirs_old old]
      exact ih below later
    · rw [enterDir_new here old] at entered
      obtain ⟨a,wrote,rfl⟩ := archive_ran entered
      obtain ⟨b,others,rfl⟩ := ih below later
      refine ⟨b,?_,?_⟩
      · rw [newDirs_new old,List.map_cons,runCalls,bind_run_ok wrote]
        exact others
      · rw [newDirs_new old]
        simp

theorem enterDirs_seen (valid : AllValid dirs) (seen : ∀ names ∈ dirs, rootComponents names ∈ s.pathsSeen) :
    (forEach (enterDir amd) dirs).run s = (.ok (),s) := by
  induction dirs with
  | nil => rfl
  | cons names dirs ih =>
    rw [forEach,bind_run_ok (enterDir_old (valid names List.mem_cons_self) (seen names List.mem_cons_self))]
    exact ih (fun other inside => valid other (List.mem_cons_of_mem _ inside)) fun other inside =>
      seen other (List.mem_cons_of_mem _ inside)

theorem enterDirs_total (valid : AllValid dirs) (dir : amd.mode &&& S_IFMT = S_IFDIR)
    (short : ∀ names ∈ dirs, ∃ fname, pathTrimPrefixes (rootPath names) = .ok fname) (s : State) :
    ∃ t, (forEach (enterDir amd) dirs).run s = (.ok (),t) := by
  induction dirs generalizing s with
  | nil => exact ⟨s,rfl⟩
  | cons names dirs ih =>
    have rest := ih (fun other inside => valid other (List.mem_cons_of_mem _ inside)) fun other inside =>
      short other (List.mem_cons_of_mem _ inside)
    rw [forEach,bind_run]
    by_cases old : rootComponents names ∈ s.pathsSeen
    · rw [enterDir_old (valid names List.mem_cons_self) old]
      exact rest s
    · obtain ⟨fname,trimmed⟩ := short names List.mem_cons_self
      obtain ⟨a,ran⟩ := archive_ok (c:=dirCall amd names) (s:={s with pathsSeen:=rootComponents names :: s.pathsSeen})
        (archivePath_dir trimmed dir)
      rw [enterDir_new (valid names List.mem_cons_self) old,ran]
      exact rest _

theorem trimmedName_absolute (rooted : isAbsolute p = true) :
    trimmedName p = if (trimBody (p.drop 1)).length = 0 then p else trimBody (p.drop 1) := by
  rw [trimmedName_eq,rooted]
  simp

theorem trimBody_valid (filled : names ≠ []) (valid : ∀ n ∈ names, ValidName n) : trimBody (unsegments names) = unsegments names := by
  have kept : ∀ n ∈ names, trivialSegment n = false := by
    intro n inside
    unfold trivialSegment
    rw [parseSingle_valid (valid n inside)]
    rfl
  have split : segments (unsegments names) = names := List.splitOn_intercalate slash (fun n inside => (valid n inside).2.1) filled
  unfold trimBody
  rw [split,List.dropWhile_eq_self_iff.mpr,List.rdropWhile_eq_self_iff.mpr]
  · exact fun last => by simp [kept _ (List.getLast_mem last)]
  · exact fun long => by simp [kept _ (List.getElem_mem long)]

theorem length_trimmedName_rootPath (filled : names ≠ []) (valid : ∀ n ∈ names, ValidName n) :
    (trimmedName (rootPath names)).length = (unsegments names).length := by
  have some : unsegments names ≠ [] := by
    obtain ⟨n,rest,rfl⟩ := List.exists_cons_of_ne_nil filled
    obtain ⟨b,more,rfl⟩ := List.exists_cons_of_ne_nil (valid n List.mem_cons_self).1
    have inside : b ∈ unsegments ((b :: more) :: rest) := unsegments_mem List.mem_cons_self List.mem_cons_self
    exact List.ne_nil_of_mem inside
  have same := trimBody_valid filled valid
  unfold rootPath
  rw [trimmedName_absolute (isAbsolute_cons _),List.drop_succ_cons,List.drop_zero,same,
    if_neg (fun none => some (List.length_eq_zero_iff.mp none))]

theorem names_sublist (parts : List (List UInt8)) : ((parts.filterMap parseSingle).filterMap Component.name).Sublist parts := by
  induction parts with
  | nil => exact .refl _
  | cons part parts ih =>
    cases parsed : parseSingle part with
    | none =>
      rw [List.filterMap_cons_none parsed]
      exact ih.cons part
    | some c =>
      rw [List.filterMap_cons_some parsed]
      cases c with
      | normal n =>
        obtain ⟨rfl,_⟩ := parseSingle_normal parsed
        exact ih.cons_cons n
      | rootDir => exact ih.cons part
      | curDir => exact ih.cons part
      | parentDir => exact ih.cons part

theorem walkDirs_filled (here : List Name) (cs : List Component) (walked : names ∈ walkDirs here cs) : names ≠ [] := by
  induction cs generalizing here with
  | nil => cases walked
  | cons c rest ih =>
    cases c with
    | rootDir => exact ih here walked
    | curDir => exact ih here walked
    | parentDir => exact ih here.dropLast walked
    | normal n =>
      rcases List.mem_cons.mp walked with rfl | later
      · simp
      · exact ih (here ++ [n]) later

theorem walkDirs_valid (rooted : isAbsolute p = true) (inside : front <+: components p) : AllValid (walkDirs [] front) := by
  intro names walked n member
  have kept := (walkDirs_sublist [] front walked).subset member
  rw [List.nil_append] at kept
  obtain ⟨c,present,named⟩ := List.mem_filterMap.mp kept
  cases c with
  | normal m =>
    cases named
    exact components_valid rooted (inside.subset present)
  | rootDir => cases named
  | curDir => cases named
  | parentDir => cases named

-- A directory on the way to a path has no longer a name than the path.
theorem trim_walked (rooted : isAbsolute p = true) (short : ∃ fname, pathTrimPrefixes p = .ok fname)
    (inside : front <+: components p) (walked : names ∈ walkDirs [] front) : ∃ fname, pathTrimPrefixes (rootPath names) = .ok fname := by
  have valid := walkDirs_valid rooted inside names walked
  have filled := walkDirs_filled [] front walked
  obtain ⟨rest,rfl⟩ := isAbsolute_iff.mp rooted
  have kept : names.Sublist (((segments rest).dropWhile trivialSegment).rdropWhile trivialSegment) := by
    refine .trans ?_ (names_sublist _)
    rw [filterMap_rdropWhile,filterMap_dropWhile]
    have whole : names.Sublist ((components (slash :: rest)).filterMap Component.name) :=
      (walkDirs_sublist [] front walked).trans (inside.sublist.filterMap _)
    rwa [components_absolute rooted,body_slash] at whole
  have less : (unsegments names).length ≤ (trimmedName (slash :: rest)).length := by
    have trimmed : (unsegments names).length ≤ (trimBody rest).length := length_unsegments_sublist kept
    rw [trimmedName_absolute rooted,List.drop_succ_cons,List.drop_zero]
    split
    · rename_i empty
      omega
    · exact trimmed
  rw [trim_iff] at short ⊢
  rw [length_trimmedName_rootPath filled valid]
  omega

theorem parentDirsAmd_dir (amd : ArchiveMd) : (parentDirsAmd amd).mode &&& S_IFMT = S_IFDIR := by
  unfold parentDirsAmd
  dsimp only
  split
  · assumption
  · have spread : ∀ a b c : UInt32, (a ||| b) &&& c = (a &&& c) ||| (b &&& c) :=
      fun a b c => UInt32.eq_of_toBitVec_eq BitVec.and_or_distrib_right
    -- the type bits of the child go, and 111 has none
    rw [spread,spread,UInt32.and_assoc,UInt32.not_and_self,UInt32.and_zero,UInt32.zero_or]
    decide

theorem gatherArchiveDirs_seen (rooted : isAbsolute p = true) (seen : components p ∈ s.pathsSeen) :
    (gatherArchiveDirs (some p) amd).run s = (.ok (),s) := by
  unfold gatherArchiveDirs pathSeen
  dsimp only
  rw [if_neg (by simp [rooted]),read_bind_run,decide_eq_true seen]
  rfl

theorem gatherArchiveDirs_unseen (rooted : isAbsolute p = true) (unseen : components p ∉ s.pathsSeen) :
    (gatherArchiveDirs (some p) amd).run s = (dirsLoop (parentDirsAmd amd) [] (components p)).run s := by
  unfold gatherArchiveDirs pathSeen
  dsimp only
  rw [if_neg (by simp [rooted]),read_bind_run,decide_eq_false unseen]
  rfl

-- The directories that are missing on the way to a path.
def missingDirs (seen : List (List Component)) (p : Path) : List (List Name) := newDirs seen (normalPrefixes (components p))

theorem dirsLoop_ran (rooted : isAbsolute p = true) (ran : (dirsLoop amd [] (components p)).run s = (.ok (),t)) :
    ¬Climbs p ∧ Entered amd (missingDirs s.pathsSeen p) s t := by
  have level : climbsFrom 0 (components p) = false := by
    by_contra climbs
    obtain ⟨front,_,stops⟩ := dirsLoop_climbs (show climbsFrom ([] : List Name).length (components p) = true by simpa using climbs)
    rw [stops amd] at ran
    obtain ⟨_,_,_,failed⟩ := bind_ok.mp ran
    cases failed
  refine ⟨by unfold Climbs; simp [level],?_⟩
  rw [dirsLoop_level (show climbsFrom ([] : List Name).length (components p) = false from level)] at ran
  have entered := enterDirs_ran (walkDirs_valid rooted List.prefix_rfl) ran
  rwa [walkDirs_prefixes] at entered

-- A second call finds every directory of the first one.
theorem Entered.covers (entered : Entered amd (newDirs s.pathsSeen dirs) s t) : ∀ names ∈ dirs, rootComponents names ∈ t.pathsSeen := by
  obtain ⟨a,_,rfl⟩ := entered
  intro names inside
  by_cases old : rootComponents names ∈ s.pathsSeen
  · exact List.mem_append_right _ old
  · exact List.mem_append_left _ (List.mem_reverse.mpr (List.mem_map_of_mem (mem_newDirs.mpr ⟨inside,old⟩)))

theorem Entered.seen (entered : Entered amd dirs s t) (seen : cs ∈ t.pathsSeen) : cs ∈ s.pathsSeen ∨ ∃ names, cs = rootComponents names := by
  obtain ⟨a,_,rfl⟩ := entered
  rcases List.mem_append.mp seen with new | old
  · obtain ⟨names,_,rfl⟩ := List.mem_map.mp (List.mem_reverse.mp new)
    exact .inr ⟨names,rfl⟩
  · exact .inl old

theorem gatherArchiveDirs_level (rooted : isAbsolute p = true) (short : ∃ fname, pathTrimPrefixes p = .ok fname)
    (unseen : components p ∉ s.pathsSeen) (level : ¬Climbs p) (amd : ArchiveMd) :
    ∃ t, (gatherArchiveDirs (some p) amd).run s = (.ok (),t) ∧ Entered (parentDirsAmd amd) (missingDirs s.pathsSeen p) s t ∧
      ∀ again, (gatherArchiveDirs (some p) again).run t = (.ok (),t) := by
  have flat : climbsFrom ([] : List Name).length (components p) = false := by simpa [Climbs] using level
  have valid := walkDirs_valid rooted (List.prefix_rfl : components p <+: components p)
  obtain ⟨t,ran⟩ := enterDirs_total valid (parentDirsAmd_dir amd) (fun names walked => trim_walked rooted short List.prefix_rfl walked) s
  have entered := enterDirs_ran valid ran
  refine ⟨t,?_,?_,fun again => ?_⟩
  · rw [gatherArchiveDirs_unseen rooted unseen,dirsLoop_level flat,ran]
  · rwa [walkDirs_prefixes] at entered
  · by_cases seen : components p ∈ t.pathsSeen
    · exact gatherArchiveDirs_seen rooted seen
    · rw [gatherArchiveDirs_unseen rooted seen,dirsLoop_level flat]
      exact enterDirs_seen valid entered.covers

theorem climbs_unrooted (climbs : Climbs p) (names : List Name) : components p ≠ rootComponents names := by
  intro same
  unfold Climbs at climbs
  rw [same] at climbs
  have level := climbsFrom_normal 0 names
  exact absurd (climbs.symm.trans level) Bool.noConfusion

theorem gatherArchiveDirs_climbs (rooted : isAbsolute p = true) (short : ∃ fname, pathTrimPrefixes p = .ok fname)
    (unseen : components p ∉ s.pathsSeen) (climbs : Climbs p) (amd : ArchiveMd) :
    ∃ t, (gatherArchiveDirs (some p) amd).run s = (.error (.ofKind .invalidInput),t) ∧
      ∀ again, (gatherArchiveDirs (some p) again).run t = (.error (.ofKind .invalidInput),t) := by
  -- the turns before the one that pops the root
  obtain ⟨front,inside,stops⟩ := dirsLoop_climbs (show climbsFrom ([] : List Name).length (components p) = true from climbs)
  have valid := walkDirs_valid rooted inside
  obtain ⟨t,ran⟩ := enterDirs_total valid (parentDirsAmd_dir amd) (fun names walked => trim_walked rooted short inside walked) s
  have entered := enterDirs_ran valid ran
  have fresh : components p ∉ t.pathsSeen := by
    intro seen
    rcases entered.seen seen with old | ⟨names,rooted⟩
    · exact unseen old
    · exact climbs_unrooted climbs names rooted
  refine ⟨t,?_,fun again => ?_⟩
  · rw [gatherArchiveDirs_unseen rooted unseen,stops,bind_run_ok ran]
    rfl
  · rw [gatherArchiveDirs_unseen rooted fresh,stops,bind_run_ok (enterDirs_seen valid entered.covers)]
    rfl

theorem missingDirs_parents (seen : List (List Component)) (p : Path) : ParentsFirst seen (missingDirs seen p) := by
  refine ParentsFirst.newDirs fun before names after split => ?_
  rcases walkDirs_parents [] (components p) ((walkDirs_prefixes [] _).trans split) with top | earlier
  · exact .inl (List.prefix_nil.mp top)
  · exact .inr (.inr earlier)

theorem missing_parents_emitted (rooted : isAbsolute p = true) (short : pathTrimPrefixes p = .ok fname) (s : State) (amd : ArchiveMd) :
    (components p ∈ s.pathsSeen → (gatherArchiveDirs (some p) amd).run s = (.ok (),s)) ∧
    (components p ∉ s.pathsSeen → Overpops (components p) →
      ∃ e t, (gatherArchiveDirs (some p) amd).run s = (.error e,t) ∧ e.kind = .invalidInput) ∧
    (components p ∉ s.pathsSeen → ¬Overpops (components p) →
      ∃ t, (gatherArchiveDirs (some p) amd).run s = (.ok (),t) ∧ Entered (parentDirsAmd amd) (missingDirs s.pathsSeen p) s t) ∧
    (missingDirs s.pathsSeen p).Nodup ∧ ParentsFirst s.pathsSeen (missingDirs s.pathsSeen p) ∧
    ((parentDirsAmd amd).mode &&& S_IFMT = S_IFDIR ∧ (parentDirsAmd amd).nlink = 2 ∧ (parentDirsAmd amd).len = 0) ∧
    ∀ again, (gatherArchiveDirs (some p) again).run ((gatherArchiveDirs (some p) amd).run s).2 =
      (gatherArchiveDirs (some p) amd).run s := by
  have trimmed : ∃ fname, pathTrimPrefixes p = .ok fname := ⟨fname,short⟩
  rw [← climbs_iff]
  refine ⟨gatherArchiveDirs_seen rooted,?_,?_,nodup_newDirs _ _,missingDirs_parents _ _,⟨parentDirsAmd_dir amd,rfl,rfl⟩,?_⟩
  · intro unseen climbs
    obtain ⟨t,ran,_⟩ := gatherArchiveDirs_climbs rooted trimmed unseen climbs amd
    exact ⟨_,t,ran,rfl⟩
  · intro unseen level
    obtain ⟨t,ran,entered,_⟩ := gatherArchiveDirs_level rooted trimmed unseen level amd
    exact ⟨t,ran,entered⟩
  · intro again
    by_cases seen : components p ∈ s.pathsSeen
    · rw [gatherArchiveDirs_seen rooted seen]
      exact gatherArchiveDirs_seen rooted seen
    · by_cases climbs : Climbs p
      · obtain ⟨t,ran,twice⟩ := gatherArchiveDirs_climbs rooted trimmed seen climbs amd
        rw [ran]
        exact twice again
      · obtain ⟨t,ran,_,twice⟩ := gatherArchiveDirs_level rooted trimmed seen climbs amd
        rw [ran]
        exact twice again

-- "/a/../b/./a" where "/b" has been seen.
def collapsed : Path := [47,97,47,46,46,47,98,47,46,47,97]
def afterB : State := {emptyState with pathsSeen:=[rootComponents [[98]]]}

theorem missing_parents_emitted_collapsed : ∃ t, (gatherArchiveDirs (some collapsed) CPIO_AMD_DEFAULT).run afterB = (.ok (),t) ∧
    t.archived = [.path [47,97] (parentDirsAmd CPIO_AMD_DEFAULT),.path [47,98,47,97] (parentDirsAmd CPIO_AMD_DEFAULT)] := by
  have level : ¬Overpops (components collapsed) := by
    rw [← climbs_iff]
    decide
  have short : pathTrimPrefixes collapsed = .ok [97,47,46,46,47,98,47,46,47,97] := by decide
  have unseen : components collapsed ∉ afterB.pathsSeen := by decide
  obtain ⟨t,ran,a,_,rfl⟩ := (missing_parents_emitted rfl short afterB CPIO_AMD_DEFAULT).2.2.1 unseen level
  have missing : missingDirs afterB.pathsSeen collapsed = [[[97]],[[98],[97]]] := by decide
  rw [missing] at ran
  exact ⟨_,ran,rfl⟩

end Rapido.Cut

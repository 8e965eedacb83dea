import Rapido.KmodParser

-- The module index against the lines of the modules.* files.
namespace Rapido.KmodParser
open UnixPath Text Eff

-- The lines of a file; a missing file has none.
def linesIn (fs : FileSystem) (root : Path) (file : String) : List Str :=
  match readLines fs (join root (named file)) with
  | .ok lines => lines.filterMap Except.toOption
  | .error _ => []

-- The module a line is about.
def depName (line : Str) : Option Name := (splitOnce ':' line).map fun parts => extractModuleName (Utf8.encode (trim parts.1))
def builtinName (line : Str) : Option Name :=
  if trim line = [] then none else some (extractModuleName (Utf8.encode (trim line)))

-- The words after a module's name, before and behind "post:".
def sections : Bool → List Str → List Name × List Name
  | _,[] => ([],[])
  | post,part :: rest =>
    if part = "pre:".toList then sections false rest
    else if part = "post:".toList then sections true rest
    else if post then ((sections post rest).1,Utf8.encode part :: (sections post rest).2)
    else (Utf8.encode part :: (sections post rest).1,(sections post rest).2)

def softTokens (name : Name) (line : Str) : List Name × List Name :=
  match Cut.splitWhitespace line with
  | word :: own :: parts => if word = "softdep".toList ∧ Utf8.encode own = name then sections false parts else ([],[])
  | _ => ([],[])

def weakTargets (name : Name) (line : Str) : List Name :=
  match Cut.splitWhitespace line with
  | [word,own,dep] => if word = "weakdep".toList ∧ Utf8.encode own = name then [Utf8.encode dep] else []
  | _ => []

-- A module with what the softdep and weakdep lines add to it.
def withDeps (fs : FileSystem) (root : Path) (name : Name) (m : KmodModule) : KmodModule :=
  {m with
    softDepsPre:=(linesIn fs root "modules.softdep").flatMap fun line => (softTokens name line).1
    softDepsPost:=(linesIn fs root "modules.softdep").flatMap fun line => (softTokens name line).2
    weakDeps:=(linesIn fs root "modules.weakdep").flatMap (weakTargets name)}

abbrev Fatal (e : IoError) : Prop := e.kind ≠ .notFound

theorem forEach_texts {each : Str → Load Unit} (ran : (Eff.forEach (fun line => Eff.ofExcept line >>= each) lines).run ctx = (.ok (),t)) :
    (Eff.forEach each (lines.filterMap Except.toOption)).run ctx = (.ok (),t) := by
  induction lines generalizing ctx with
  | nil => exact ran
  | cons line rest ih =>
    obtain ⟨_,middle,first,later⟩ := bind_ok.mp ran
    cases line with
    | error e => cases first
    | ok text => exact bind_ok.mpr ⟨(),middle,first,ih later⟩

theorem forLines_ok (ran : (forLines fs file each).run ctx = (.ok (),t)) :
    (Eff.forEach each (linesIn fs ctx.moduleRoot file)).run ctx = (.ok (),t) := by
  unfold forLines at ran
  rw [read_bind_run] at ran
  obtain ⟨lines,middle,opened,later⟩ := bind_ok.mp ran
  obtain ⟨found,rfl⟩ := ofExcept_run_ok opened
  unfold linesIn
  rw [found]
  exact forEach_texts later

-- A NotFound comes from opening the file, before any line is read.
theorem forLines_missing (never : ∀ line, FailsOnly Fatal (each line))
    (ran : (forLines fs file each).run ctx = (.error e,t)) (missing : e.kind = .notFound) :
    ctx = t ∧ linesIn fs ctx.moduleRoot file = [] := by
  unfold forLines at ran
  rw [read_bind_run,bind_run] at ran
  unfold linesIn
  cases opened : readLines fs (join ctx.moduleRoot (named file)) with
  | error failure =>
    rw [opened] at ran
    cases ran
    exact ⟨rfl,rfl⟩
  | ok lines =>
    rw [opened] at ran
    have mild : FailsOnly Fatal (Eff.forEach (fun line => Eff.ofExcept line >>= each) lines) := by
      refine .forEach fun line inside => .bind (.ofExcept fun failure failed => ?_) fun text => never text
      subst failed
      unfold readLines at opened
      split at opened
      · cases opened
      · cases opened
        obtain ⟨raw,_,broken⟩ := List.mem_map.mp inside
        unfold lineText at broken
        split at broken
        · cases broken
          decide
        · cases broken
    exact absurd missing (mild.error _ _ _ trivial ran)

theorem squash_ok (never : ∀ line, FailsOnly Fatal (each line))
    (ran : (squashNotfound fext (forLines fs file each)).run ctx = (.ok (),t)) :
    (Eff.forEach each (linesIn fs ctx.moduleRoot file)).run ctx = (.ok (),t) := by
  unfold squashNotfound at ran
  dsimp only at ran
  split at ran
  · rename_i e left failed
    split at ran
    · rename_i missing
      cases ran
      obtain ⟨same,none⟩ := forLines_missing never failed missing
      rw [none,← same]
      rfl
    · cases ran
  · rename_i left loaded
    cases ran
    exact forLines_ok loaded

theorem mapErr_ok (ran : (mapErr fext load).run ctx = (.ok (),t)) : load.run ctx = (.ok (),t) := by
  unfold mapErr at ran
  dsimp only at ran
  split at ran
  · cases ran
  · rename_i loaded
    cases ran
    exact loaded

-- modules.dep
def depEntry (line : Str) : Option (Name × KmodModule) :=
  (splitOnce ':' line).map fun parts =>
    (extractModuleName (Utf8.encode (trim parts.1)),hardModule (Utf8.encode (trim parts.1)) parts.2)

theorem hardLine_run (line : Str) (ctx : KmodContext) : (hardLine line).run ctx = match depEntry line with
    | none => (.ok (),ctx)
    | some (name,m) => (match ctx.modulesHash name with
      | some _ => .error ⟨.invalidData,"duplicate entry: " ++ Cut.debugName m.relPath⟩
      | none => .ok (),{ctx with modulesHash:=Function.update ctx.modulesHash name (some m)}) := by
  unfold hardLine depEntry
  cases splitOnce ':' line with
  | none => rfl
  | some parts =>
    obtain ⟨front,deps⟩ := parts
    dsimp only [Option.map_some]
    rw [read_bind_run]
    unfold insertModule
    rw [update_bind_run]
    cases ctx.modulesHash (extractModuleName (Utf8.encode (trim front))) <;> rfl

theorem hardLine_never (line : Str) : FailsOnly Fatal (hardLine line) := by
  unfold hardLine
  split
  · exact .pure
  · refine .bind .read fun old => .bind .update fun _ => ?_
    split
    · exact .fail nofun
    · exact .pure

theorem hardLine_step (ran : (hardLine line).run ctx = (.ok (),t)) : t.moduleRoot = ctx.moduleRoot ∧
    (∀ name m, depEntry line = some (name,m) → ctx.modulesHash name = none ∧ t.modulesHash name = some m) ∧
      ∀ name, (∀ m, depEntry line ≠ some (name,m)) → t.modulesHash name = ctx.modulesHash name := by
  rw [hardLine_run] at ran
  cases entry : depEntry line with
  | none =>
    rw [entry] at ran
    cases ran
    exact ⟨rfl,nofun,fun _ _ => rfl⟩
  | some pair =>
    obtain ⟨own,made⟩ := pair
    rw [entry] at ran
    dsimp only at ran
    cases fresh : ctx.modulesHash own with
    | some old =>
      rw [fresh] at ran
      cases ran
    | none =>
      rw [fresh] at ran
      cases ran
      refine ⟨rfl,?_,?_⟩
      · intro name m found
        cases found
        exact ⟨fresh,Function.update_self ..⟩
      · intro name absent
        have other : name ≠ own := fun same => absent made (by rw [same])
        exact Function.update_of_ne other _ _

-- Every entry is new, and stays as it is.
theorem hardLines_spec (ran : (Eff.forEach hardLine lines).run ctx = (.ok (),t)) :
    t.moduleRoot = ctx.moduleRoot ∧ (∀ line ∈ lines, ∀ name m, depEntry line = some (name,m) →
      ctx.modulesHash name = none ∧ t.modulesHash name = some m) ∧
      ∀ name, (∀ line ∈ lines, ∀ m, depEntry line ≠ some (name,m)) → t.modulesHash name = ctx.modulesHash name := by
  induction lines generalizing ctx with
  | nil =>
    cases ran
    exact ⟨rfl,nofun,fun _ _ => rfl⟩
  | cons line rest ih =>
    obtain ⟨_,middle,first,later⟩ := bind_ok.mp ran
    obtain ⟨root,entries,others⟩ := ih later
    obtain ⟨sameRoot,own,apart⟩ := hardLine_step first
    -- what this line has entered no later line may enter again
    have taken : ∀ name m, depEntry line = some (name,m) → ∀ other ∈ rest, ∀ m', depEntry other ≠ some (name,m') := by
      intro name m entry other inside m' found
      have unset := (entries other inside name m' found).1
      rw [(own name m entry).2] at unset
      cases unset
    refine ⟨root.trans sameRoot,?_,?_⟩
    · intro other inside name m found
      rcases List.mem_cons.mp inside with rfl | inside
      · obtain ⟨fresh,entered⟩ := own name m found
        exact ⟨fresh,(others name (taken name m found)).trans entered⟩
      · obtain ⟨unset,final⟩ := entries other inside name m found
        have absent : ∀ m', depEntry line ≠ some (name,m') := fun m' entry => taken name m' entry other inside m found
        exact ⟨(apart name absent).symm.trans unset,final⟩
    · intro name absent
      rw [others name fun other inside => absent other (List.mem_cons_of_mem _ inside)]
      exact apart name (absent line List.mem_cons_self)

-- modules.builtin
theorem builtinLine_run (line : Str) (ctx : KmodContext) : (builtinLine line).run ctx = (.ok (),match builtinName line with
    | none => ctx
    | some name => match ctx.modulesHash name with
      | some _ => ctx
      | none => {ctx with modulesHash:=Function.update ctx.modulesHash name (some builtinModule)}) := by
  unfold builtinLine builtinName
  by_cases blank : trim line = []
  · rw [if_pos blank,if_pos blank]
    rfl
  · rw [if_neg blank,if_neg blank]
    dsimp only
    rw [read_bind_run]
    cases ctx.modulesHash (extractModuleName (Utf8.encode (trim line))) <;> rfl

theorem builtinLine_step (ran : (builtinLine line).run ctx = (.ok (),t)) : t.moduleRoot = ctx.moduleRoot ∧
    (∀ name m, ctx.modulesHash name = some m → t.modulesHash name = some m) ∧
      ∀ name, ctx.modulesHash name = none → (builtinName line = some name ∧ t.modulesHash name = some builtinModule) ∨
        (builtinName line ≠ some name ∧ t.modulesHash name = none) := by
  rw [builtinLine_run] at ran
  cases own : builtinName line with
  | none =>
    rw [own] at ran
    cases ran
    exact ⟨rfl,fun _ _ found => found,fun name unset => .inr ⟨nofun,unset⟩⟩
  | some named =>
    rw [own] at ran
    dsimp only at ran
    cases old : ctx.modulesHash named with
    | some m =>
      rw [old] at ran
      cases ran
      refine ⟨rfl,fun _ _ found => found,fun name unset => .inr ⟨fun same => ?_,unset⟩⟩
      cases same
      rw [old] at unset
      cases unset
    | none =>
      rw [old] at ran
      cases ran
      refine ⟨rfl,fun name m found => ?_,fun name unset => ?_⟩
      · have other : name ≠ named := fun same => by
          rw [same,old] at found
          cases found
        exact (Function.update_of_ne other _ _).trans found
      · by_cases same : name = named
        · subst same
          exact .inl ⟨rfl,Function.update_self ..⟩
        · exact .inr ⟨fun equal => same (Option.some.inj equal).symm,(Function.update_of_ne same _ _).trans unset⟩

theorem builtinLines_spec (ran : (Eff.forEach builtinLine lines).run ctx = (.ok (),t)) :
    t.moduleRoot = ctx.moduleRoot ∧ (∀ name m, ctx.modulesHash name = some m → t.modulesHash name = some m) ∧
      ∀ line ∈ lines, ∀ name, builtinName line = some name → ctx.modulesHash name = none →
        t.modulesHash name = some builtinModule := by
  induction lines generalizing ctx with
  | nil =>
    cases ran
    exact ⟨rfl,fun _ _ found => found,nofun⟩
  | cons line rest ih =>
    obtain ⟨_,middle,first,later⟩ := bind_ok.mp ran
    obtain ⟨root,kept,added⟩ := ih later
    obtain ⟨sameRoot,stays,fresh⟩ := builtinLine_step first
    refine ⟨root.trans sameRoot,fun name m found => kept name m (stays name m found),?_⟩
    intro other inside name about unset
    rcases fresh name unset with ⟨_,here⟩ | ⟨apart,still⟩
    · exact kept name builtinModule here
    · rcases List.mem_cons.mp inside with rfl | inside
      · exact absurd about apart
      · exact added other inside name about still

-- softdep, weakdep and alias lines only add to what the modules hold.
structure Changes (each : Str → Load Unit) (change : Str → Name → KmodModule → KmodModule) : Prop where
  ok : ∀ line ctx, ((each line).run ctx).1 = .ok ()
  root : ∀ line ctx, ((each line).run ctx).2.moduleRoot = ctx.moduleRoot
  hash : ∀ line ctx name, ((each line).run ctx).2.modulesHash name = (ctx.modulesHash name).map (change line name)

theorem Changes.all {change : Str → Name → KmodModule → KmodModule} (changes : Changes each change)
    (ran : (Eff.forEach each lines).run ctx = (.ok (),t)) : t.moduleRoot = ctx.moduleRoot ∧
      ∀ name, t.modulesHash name = (ctx.modulesHash name).map fun m => lines.foldl (fun m line => change line name m) m := by
  induction lines generalizing ctx with
  | nil =>
    cases ran
    exact ⟨rfl,fun name => Option.map_id'.symm⟩
  | cons line rest ih =>
    obtain ⟨_,middle,first,later⟩ := bind_ok.mp ran
    obtain ⟨root,hash⟩ := ih later
    have same : middle = ((each line).run ctx).2 := run_state first
    refine ⟨root.trans (same ▸ changes.root line ctx),fun name => ?_⟩
    rw [hash name,same,changes.hash line ctx name,Option.map_map]
    rfl

theorem Changes.never {change : Str → Name → KmodModule → KmodModule} (changes : Changes each change) (line : Str) :
    FailsOnly Fatal (each line) where
  ok := fun _ _ _ _ _ => trivial
  error := by
    intro ctx failure t _ ran
    have fine := changes.ok line ctx
    rw [ran] at fine
    cases fine

theorem changeModule_hash (own : Name) (change : KmodModule → KmodModule) (ctx : KmodContext) (name : Name) :
    ((changeModule own change).run ctx).2.modulesHash name =
      (ctx.modulesHash name).map fun m => if own = name then change m else m := by
  unfold changeModule
  rw [update_run]
  by_cases same : name = own
  · subst same
    simp
  · have other : own ≠ name := fun equal => same equal.symm
    simp [Function.update_of_ne same,other]

theorem pushSoft_sections (m : KmodModule) (post : Bool) (parts : List Str) : pushSoft m post parts =
    {m with softDepsPre:=m.softDepsPre ++ (sections post parts).1,softDepsPost:=m.softDepsPost ++ (sections post parts).2} := by
  induction parts generalizing m post with
  | nil => simp [pushSoft,sections]
  | cons part rest ih =>
    unfold pushSoft sections
    split
    · exact ih m false
    · split
      · exact ih m true
      · cases post with
        | true => simp [ih]
        | false => simp [ih]

def addSoft (line : Str) (name : Name) (m : KmodModule) : KmodModule :=
  {m with softDepsPre:=m.softDepsPre ++ (softTokens name line).1,softDepsPost:=m.softDepsPost ++ (softTokens name line).2}
def addWeak (line : Str) (name : Name) (m : KmodModule) : KmodModule :=
  {m with weakDeps:=m.weakDeps ++ weakTargets name line}

theorem changes_of {change : Str → Name → KmodModule → KmodModule}
    (shape : ∀ line, (each line = pure () ∧ ∀ name m, change line name m = m) ∨
      ∃ own made, each line = changeModule own made ∧ ∀ name m, change line name m = if own = name then made m else m) :
    Changes each change := by
  refine ⟨?_,?_,?_⟩
  · intro line ctx
    rcases shape line with ⟨nothing,_⟩ | ⟨own,made,changed,_⟩
    · rw [nothing]
      rfl
    · rw [changed]
      rfl
  · intro line ctx
    rcases shape line with ⟨nothing,_⟩ | ⟨own,made,changed,_⟩
    · rw [nothing]
      rfl
    · rw [changed]
      rfl
  · intro line ctx name
    rcases shape line with ⟨nothing,same⟩ | ⟨own,made,changed,same⟩
    · rw [nothing,funext (same name),Option.map_id']
      rfl
    · rw [changed,changeModule_hash,funext (same name)]

theorem addSoft_none (none : softTokens name line = ([],[])) (m : KmodModule) : addSoft line name m = m := by
  unfold addSoft
  rw [none]
  simp

theorem softLine_changes : Changes softLine addSoft := by
  refine changes_of fun line => ?_
  have tokens := fun name => softTokens.eq_def name line
  unfold softLine
  generalize Cut.splitWhitespace line = words at tokens ⊢
  rcases words with _ | ⟨word,_ | ⟨own,_ | ⟨part,parts⟩⟩⟩
  · exact .inl ⟨rfl,fun name => addSoft_none (tokens name)⟩
  · exact .inl ⟨rfl,fun name => addSoft_none (tokens name)⟩
  · -- a name without words behind it
    refine .inl ⟨rfl,fun name => addSoft_none ((tokens name).trans ?_)⟩
    exact ite_self _
  · dsimp only at tokens ⊢
    by_cases soft : word = "softdep".toList
    · rw [if_neg (not_not.mpr soft)]
      refine .inr ⟨_,_,rfl,fun name m => ?_⟩
      by_cases same : Utf8.encode own = name
      · unfold addSoft
        rw [tokens name,if_pos ⟨soft,same⟩,if_pos same,pushSoft_sections]
      · rw [if_neg same]
        exact addSoft_none ((tokens name).trans (if_neg fun both => same both.2)) m
    · rw [if_pos soft]
      exact .inl ⟨rfl,fun name => addSoft_none ((tokens name).trans (if_neg fun both => soft both.1))⟩

theorem addWeak_none (none : weakTargets name line = []) (m : KmodModule) : addWeak line name m = m := by
  unfold addWeak
  rw [none,List.append_nil]

theorem weakLine_changes : Changes weakLine addWeak := by
  refine changes_of fun line => ?_
  have targets := fun name => weakTargets.eq_def name line
  unfold weakLine
  generalize Cut.splitWhitespace line = words at targets ⊢
  rcases words with _ | ⟨word,_ | ⟨own,_ | ⟨dep,_ | ⟨extra,rest⟩⟩⟩⟩
  · exact .inl ⟨rfl,fun name => addWeak_none (targets name)⟩
  · exact .inl ⟨rfl,fun name => addWeak_none (targets name)⟩
  · exact .inl ⟨rfl,fun name => addWeak_none (targets name)⟩
  · dsimp only at targets ⊢
    by_cases weak : word = "weakdep".toList
    · rw [if_neg (not_not.mpr weak)]
      refine .inr ⟨_,_,rfl,fun name m => ?_⟩
      by_cases same : Utf8.encode own = name
      · unfold addWeak
        rw [targets name,if_pos ⟨weak,same⟩,if_pos same]
      · rw [if_neg same]
        exact addWeak_none ((targets name).trans (if_neg fun both => same both.2)) m
    · rw [if_pos weak]
      exact .inl ⟨rfl,fun name => addWeak_none ((targets name).trans (if_neg fun both => weak both.1))⟩
  · exact .inl ⟨rfl,fun name => addWeak_none (targets name)⟩

theorem aliasLine_changes : Changes aliasLine fun _ _ m => m := by
  refine ⟨?_,?_,?_⟩
  · intro line ctx
    unfold aliasLine
    repeat' split
    all_goals rfl
  · intro line ctx
    unfold aliasLine
    repeat' split
    all_goals rfl
  · intro line ctx name
    rw [Option.map_id']
    unfold aliasLine
    repeat' split
    all_goals rfl

theorem addSoft_all (lines : List Str) (name : Name) (m : KmodModule) :
    lines.foldl (fun m line => addSoft line name m) m =
      {m with
        softDepsPre:=m.softDepsPre ++ lines.flatMap fun line => (softTokens name line).1
        softDepsPost:=m.softDepsPost ++ lines.flatMap fun line => (softTokens name line).2} := by
  induction lines generalizing m with
  | nil => simp
  | cons line rest ih =>
    rw [List.foldl_cons,ih]
    simp [addSoft]

theorem addWeak_all (lines : List Str) (name : Name) (m : KmodModule) :
    lines.foldl (fun m line => addWeak line name m) m = {m with weakDeps:=m.weakDeps ++ lines.flatMap (weakTargets name)} := by
  induction lines generalizing m with
  | nil => simp
  | cons line rest ih =>
    rw [List.foldl_cons,ih]
    simp [addWeak]

-- A missing modules.alias leaves everything as it is.
theorem loadAliases_ok (ran : (squashNotfound "alias" (loadAliases fs)).run ctx = (.ok (),t)) :
    (fs.pathExists (join ctx.moduleRoot (named "modules.alias")) = true ∧
      (Eff.forEach aliasLine (linesIn fs ctx.moduleRoot "modules.alias")).run ctx = (.ok (),t)) ∨
      (fs.pathExists (join ctx.moduleRoot (named "modules.alias")) = false ∧ t = ctx) := by
  cases present : fs.pathExists (join ctx.moduleRoot (named "modules.alias")) with
  | true =>
    have same : (loadAliases fs).run ctx = (forLines fs "modules.alias" aliasLine).run ctx := by
      unfold loadAliases
      rw [read_bind_run,if_pos present]
    have loaded : (squashNotfound "alias" (forLines fs "modules.alias" aliasLine)).run ctx = (.ok (),t) := by
      rw [← ran]
      unfold squashNotfound
      dsimp only
      rw [same]
    exact .inl ⟨rfl,squash_ok aliasLine_changes.never loaded⟩
  | false =>
    unfold squashNotfound loadAliases at ran
    dsimp only at ran
    rw [read_bind_run,if_neg (Bool.eq_false_iff.mp present)] at ran
    cases ran
    exact .inr ⟨rfl,rfl⟩

theorem loadAliases_hash (ran : (squashNotfound "alias" (loadAliases fs)).run ctx = (.ok (),t)) :
    t.modulesHash = ctx.modulesHash := by
  rcases loadAliases_ok ran with ⟨_,loaded⟩ | ⟨_,same⟩
  · obtain ⟨_,hash⟩ := aliasLine_changes.all loaded
    funext name
    rw [hash name]
    have unchanged : ∀ (lines : List Str) (m : KmodModule), lines.foldl (fun m _ => m) m = m := by
      intro lines m
      induction lines with
      | nil => rfl
      | cons line rest ih => exact ih
    simp only [unchanged,Option.map_id']
  · rw [same]

-- What the five files leave in the index, one after the other.
theorem loadAll_stages (ran : (loadAll fs).run ctx = (.ok (),t)) : ∃ hard builtin,
    (Eff.forEach hardLine (linesIn fs ctx.moduleRoot "modules.dep")).run ctx = (.ok (),hard) ∧
    (Eff.forEach builtinLine (linesIn fs ctx.moduleRoot "modules.builtin")).run hard = (.ok (),builtin) ∧
    ∀ name, t.modulesHash name = (builtin.modulesHash name).map fun m =>
      (linesIn fs ctx.moduleRoot "modules.weakdep").foldl (fun m line => addWeak line name m)
        ((linesIn fs ctx.moduleRoot "modules.softdep").foldl (fun m line => addSoft line name m) m) := by
  obtain ⟨_,hard,ranHard,ran⟩ := bind_ok.mp ran
  obtain ⟨_,builtin,ranBuiltin,ran⟩ := bind_ok.mp ran
  obtain ⟨_,soft,ranSoft,ran⟩ := bind_ok.mp ran
  obtain ⟨_,weak,ranWeak,ranAlias⟩ := bind_ok.mp ran
  have hardRun := squash_ok hardLine_never ranHard
  have hardRoot := (hardLines_spec hardRun).1
  have builtinRun := forLines_ok (mapErr_ok ranBuiltin)
  rw [hardRoot] at builtinRun
  have builtinRoot := (builtinLines_spec builtinRun).1.trans hardRoot
  have softRun := squash_ok softLine_changes.never ranSoft
  rw [builtinRoot] at softRun
  obtain ⟨softRoot,softHash⟩ := softLine_changes.all softRun
  have weakRun := squash_ok weakLine_changes.never ranWeak
  rw [softRoot,builtinRoot] at weakRun
  obtain ⟨_,weakHash⟩ := weakLine_changes.all weakRun
  refine ⟨hard,builtin,hardRun,builtinRun,fun name => ?_⟩
  rw [loadAliases_hash ranAlias,weakHash name,softHash name,Option.map_map]
  rfl

theorem kmodContextNew_ok (made : kmodContextNew fs dirname = .ok ctx) :
    (loadAll fs).run ⟨fun _ => none,fun _ => none,dirname⟩ = (.ok (),ctx) := by
  unfold kmodContextNew at made
  split at made
  · cases made
  · rename_i loaded
    cases made
    exact loaded

theorem find_of_hash {ctx : KmodContext} (found : ctx.modulesHash name = some m) : ctx.find name = some m := by
  unfold KmodContext.find KmodContext.lookup
  rw [found]

theorem depEntry_name (named : depName line = some name) : ∃ m, depEntry line = some (name,m) := by
  unfold depName at named
  unfold depEntry
  cases cut : splitOnce ':' line with
  | none =>
    rw [cut] at named
    cases named
  | some parts =>
    rw [cut] at named
    cases named
    exact ⟨_,rfl⟩

theorem depName_entry (entry : depEntry line = some (name,m)) : depName line = some name := by
  unfold depEntry at entry
  unfold depName
  cases cut : splitOnce ':' line with
  | none =>
    rw [cut] at entry
    cases entry
  | some parts =>
    rw [cut] at entry
    cases entry
    rfl

-- Two lines with one name: the second one finds the first one's entry.
theorem hardLines_duplicate (twice : lines = front ++ first :: middle ++ second :: back) (one : depName first = some name)
    (two : depName second = some name) : ∀ t, (Eff.forEach hardLine lines).run ctx ≠ (.ok (),t) := by
  intro t ran
  subst twice
  rw [List.append_assoc,forEach_append] at ran
  obtain ⟨_,start,_,ran⟩ := bind_ok.mp ran
  rw [List.cons_append] at ran
  obtain ⟨_,after,inserted,later⟩ := bind_ok.mp ran
  obtain ⟨m,entry⟩ := depEntry_name one
  obtain ⟨m',again⟩ := depEntry_name two
  have unset := (hardLines_spec later).2.1 second (by simp) name m' again
  rw [hardLine_run,entry] at inserted
  dsimp only at inserted
  have set : after.modulesHash name = some m := by
    have made := congrArg Prod.snd inserted
    dsimp only at made
    rw [← made]
    exact Function.update_self ..
  rw [set] at unset
  cases unset.1

theorem index_faithful (fs : FileSystem) (dirname : Path) :
    (∀ ctx, kmodContextNew fs dirname = .ok ctx →
      (∀ line ∈ linesIn fs dirname "modules.dep", ∀ front deps, splitOnce ':' line = some (front,deps) →
        let path := Utf8.encode (trim front)
        ctx.find (extractModuleName path) = some (withDeps fs dirname (extractModuleName path)
          ⟨.loadableModule,path,(Cut.splitWhitespace (trim deps)).map Utf8.encode,[],[],[]⟩)) ∧
      ∀ line ∈ linesIn fs dirname "modules.builtin", ∀ name, builtinName line = some name →
        (∀ dep ∈ linesIn fs dirname "modules.dep", depName dep ≠ some name) →
        ctx.find name = some (withDeps fs dirname name ⟨.builtin,[],[],[],[],[]⟩)) ∧
    ∀ front first middle second back name, linesIn fs dirname "modules.dep" = front ++ first :: middle ++ second :: back →
      depName first = some name → depName second = some name → ∃ e, kmodContextNew fs dirname = .error e := by
  refine ⟨?_,?_⟩
  · intro ctx made
    obtain ⟨hard,builtin,hardRun,builtinRun,final⟩ := loadAll_stages (kmodContextNew_ok made)
    obtain ⟨_,entries,others⟩ := hardLines_spec hardRun
    obtain ⟨_,kept,added⟩ := builtinLines_spec builtinRun
    refine ⟨?_,?_⟩
    · intro line inside front deps cut path
      have entry : depEntry line = some (extractModuleName path,hardModule path deps) := by simp [depEntry,cut,path]
      apply find_of_hash
      rw [final,kept _ _ (entries line inside _ _ entry).2,Option.map_some,addSoft_all,addWeak_all]
      simp [withDeps,hardModule]
    · intro line inside name about unnamed
      have unset : hard.modulesHash name = none := by
        refine (others name fun dep present m entry => unnamed dep present (depName_entry entry)).trans ?_
        rfl
      apply find_of_hash
      rw [final,added line inside name about unset,Option.map_some,addSoft_all,addWeak_all]
      simp [withDeps,builtinModule]
  · intro front first middle second back name twice one two
    cases made : kmodContextNew fs dirname with
    | error e => exact ⟨e,rfl⟩
    | ok ctx =>
      obtain ⟨hard,_,hardRun,_⟩ := loadAll_stages (kmodContextNew_ok made)
      exact absurd hardRun (hardLines_duplicate twice one two hard)

-- One file of each kind but modules.alias.
def indexFiles (p : Path) : Option String :=
  if p = named "/m/modules.dep" then some "kernel/a-b.ko.xz: kernel/c.ko\nkernel/c.ko:\n"
  else if p = named "/m/modules.builtin" then some "kernel/c.ko\nkernel/d.ko\n"
  else if p = named "/m/modules.softdep" then some "softdep a_b pre: x post: y z\nsoftdep a_b w\n"
  else if p = named "/m/modules.weakdep" then some "weakdep d e\n"
  else none

def indexFileSystem : FileSystem where
  cwd := [slash]
  symlinkMetadata := fun _ => .error (.ofKind .notFound)
  fileOpen := fun p => match indexFiles p with
    | some text => .ok (⟨0,0,0,1,0,0,0⟩,named text)
    | none => .error (.ofKind .notFound)
  readDir := fun _ => .error (.ofKind .notFound)
  readLink := fun _ => .error (.ofKind .notFound)
  canonicalize := fun _ => .error (.ofKind .notFound)
  pathExists := fun _ => false
  cwd_absolute := root_absolute
  readDir_names := @lists_nothing
  canonicalize_absolute := @resolves_nothing

theorem indexFileSystem_loads : (kmodContextNew indexFileSystem (named "/m")).isOk = true := by decide +kernel

theorem index_faithful_sample : ∃ ctx, kmodContextNew indexFileSystem (named "/m") = .ok ctx ∧
    ctx.find (named "a_b") = some ⟨.loadableModule,named "kernel/a-b.ko.xz",[named "kernel/c.ko"],
      [named "x",named "w"],[named "y",named "z"],[]⟩ ∧
    ctx.find (named "d") = some ⟨.builtin,[],[],[],[],[named "e"]⟩ := by
  obtain ⟨ctx,made⟩ := isOk_value indexFileSystem_loads
  obtain ⟨dep,builtin⟩ := (index_faithful indexFileSystem (named "/m")).1 ctx made
  have hard := dep "kernel/a-b.ko.xz: kernel/c.ko".toList (by decide +kernel) "kernel/a-b.ko.xz".toList
    " kernel/c.ko".toList (by decide +kernel)
  have plain := builtin "kernel/d.ko".toList (by decide +kernel) (named "d") (by decide +kernel) (by decide +kernel)
  refine ⟨ctx,made,?_,?_⟩
  · refine Eq.trans ?_ (hard.trans ?_)
    · exact congrArg ctx.find (by decide +kernel)
    · decide +kernel
  · apply plain.trans
    decide +kernel

end Rapido.KmodParser

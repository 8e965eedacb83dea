import Rapido.KmodIndex

-- The index as a function of the modules.* files, and what find makes of a
-- name in either spelling.
namespace Rapido.KmodParser
open UnixPath Text Eff

-- "alias <alias_name> <module_name>"
def aliasEntry (line : Str) : Option (Name × Name) :=
  match Cut.splitWhitespace line with
  | word :: aliasName :: name :: _ => if word = "alias".toList then some (Utf8.encode aliasName,Utf8.encode name) else none
  | _ => none

def entryFor (name : Name) : Option (Name × β) → Option β
  | none => none
  | some (own,value) => if own = name then some value else none

-- The module a name is the key of, from the lines of the files.
def indexed (fs : FileSystem) (root : Path) (name : Name) : Option KmodModule :=
  match (linesIn fs root "modules.dep").findSome? fun line => entryFor name (depEntry line) with
  | some m => some (withDeps fs root name m)
  | none =>
    if ∃ line ∈ linesIn fs root "modules.builtin", builtinName line = some name
    then some (withDeps fs root name builtinModule) else none

-- The last line for a name is the one that counts.
def aliased (fs : FileSystem) (root : Path) (name : Name) : Option Name :=
  if fs.pathExists (join root (named "modules.alias"))
  then (linesIn fs root "modules.alias").reverse.findSome? fun line => entryFor name (aliasEntry line) else none

theorem entryFor_some {entry : Option (Name × β)} : entryFor name entry = some value ↔ entry = some (name,value) := by
  rcases entry with _ | ⟨own,held⟩
  · simp [entryFor]
  · simp [entryFor]

-- modules.dep
theorem hardLines_hash (ran : (Eff.forEach hardLine lines).run ctx = (.ok (),t)) (name : Name) :
    t.modulesHash name = (match lines.findSome? fun line => entryFor name (depEntry line) with
      | some m => some m
      | none => ctx.modulesHash name) := by
  obtain ⟨_,entries,others⟩ := hardLines_spec ran
  cases found : lines.findSome? fun line => entryFor name (depEntry line) with
  | some m =>
    obtain ⟨line,inside,own⟩ := List.exists_of_findSome?_eq_some found
    exact (entries line inside name m (entryFor_some.mp own)).2
  | none =>
    apply others name
    intro line inside m entry
    have absent := List.findSome?_eq_none_iff.mp found line inside
    rw [entryFor_some.mpr entry] at absent
    cases absent

-- modules.builtin
theorem builtinLines_unset (ran : (Eff.forEach builtinLine lines).run ctx = (.ok (),t)) (old : ctx.modulesHash name = none)
    (absent : ∀ line ∈ lines, builtinName line ≠ some name) : t.modulesHash name = none := by
  induction lines generalizing ctx with
  | nil =>
    cases ran
    exact old
  | cons line rest ih =>
    obtain ⟨_,middle,first,later⟩ := bind_ok.mp ran
    obtain ⟨_,_,fresh⟩ := builtinLine_step first
    rcases fresh name old with ⟨about,_⟩ | ⟨_,still⟩
    · exact absurd about (absent line List.mem_cons_self)
    · exact ih later still fun other inside => absent other (List.mem_cons_of_mem _ inside)

theorem builtinLines_hash (ran : (Eff.forEach builtinLine lines).run ctx = (.ok (),t)) (name : Name) :
    t.modulesHash name = (match ctx.modulesHash name with
      | some m => some m
      | none => if ∃ line ∈ lines, builtinName line = some name then some builtinModule else none) := by
  obtain ⟨_,kept,added⟩ := builtinLines_spec ran
  cases old : ctx.modulesHash name with
  | some m => exact kept name m old
  | none =>
    dsimp only
    split
    · rename_i present
      obtain ⟨line,inside,about⟩ := present
      exact added line inside name about old
    · rename_i absent
      exact builtinLines_unset ran old fun line inside about => absent ⟨line,inside,about⟩

-- modules.alias
theorem aliasLine_run (line : Str) (ctx : KmodContext) : (aliasLine line).run ctx = (.ok (),match aliasEntry line with
    | none => ctx
    | some (own,target) => {ctx with aliasMap:=Function.update ctx.aliasMap own (some target)}) := by
  unfold aliasLine aliasEntry
  generalize Cut.splitWhitespace line = words
  rcases words with _ | ⟨word,_ | ⟨own,_ | ⟨target,rest⟩⟩⟩
  · rfl
  · rfl
  · rfl
  · dsimp only
    by_cases known : word = "alias".toList
    · rw [if_neg (not_not.mpr known),if_pos known]
      rfl
    · rw [if_pos known,if_neg known]
      rfl

theorem aliasLines_map (ran : (Eff.forEach aliasLine lines).run ctx = (.ok (),t)) (name : Name) :
    t.aliasMap name = (match lines.reverse.findSome? fun line => entryFor name (aliasEntry line) with
      | some target => some target
      | none => ctx.aliasMap name) := by
  induction lines generalizing ctx with
  | nil =>
    cases ran
    rfl
  | cons line rest ih =>
    obtain ⟨_,middle,first,later⟩ := bind_ok.mp ran
    rw [ih later,List.reverse_cons,List.findSome?_append]
    cases rest.reverse.findSome? fun line => entryFor name (aliasEntry line) with
    | some target => rfl
    | none =>
      rw [aliasLine_run] at first
      cases entry : aliasEntry line with
      | none =>
        rw [entry] at first
        cases first
        simp [entry,entryFor]
      | some pair =>
        obtain ⟨own,target⟩ := pair
        rw [entry] at first
        cases first
        by_cases same : own = name
        · subst same
          simp [entry,entryFor]
        · simp [entry,entryFor,same,Function.update_of_ne (Ne.symm same)]

-- No other file has aliases.
def Unaliased (root : Path) (ctx : KmodContext) : Prop := (ctx.aliasMap = fun _ => none) ∧ ctx.moduleRoot = root

abbrev Plain (root : Path) (load : Eff ε KmodContext Unit) : Prop := Keeps (fun _ => False) (Unaliased root) load

theorem insertModule_plain : Plain root (insertModule name m) := Triple.update fun _ holds => holds
theorem changeModule_plain : Plain root (changeModule name change) := Triple.update fun _ holds => holds

theorem hardLine_plain (line : Str) : Plain root (hardLine line) := by
  unfold hardLine
  split
  · exact .pure
  · refine .bind .read fun old => .bind insertModule_plain fun _ => ?_
    cases old with
    | some _ => exact .fail
    | none => exact .pure

theorem builtinLine_plain (line : Str) : Plain root (builtinLine line) := by
  unfold builtinLine
  split
  · exact .pure
  · refine .bind .read fun old => ?_
    cases old with
    | some _ => exact .pure
    | none => exact insertModule_plain

theorem softLine_plain (line : Str) : Plain root (softLine line) := by
  unfold softLine
  split
  · split
    · exact .pure
    · exact changeModule_plain
  · exact .pure

theorem weakLine_plain (line : Str) : Plain root (weakLine line) := by
  unfold weakLine
  split
  · split
    · exact .pure
    · exact changeModule_plain
  · exact .pure

theorem forLines_plain (each : ∀ line, Plain root (act line)) : Plain root (forLines fs file act) :=
  .bind .read fun _ => .bind .ofExcept fun _ => .forEach (fun _ => .bind .ofExcept each) _

theorem plain_final (plain : Plain root load) (start : Unaliased root ctx) : Unaliased root (load.run ctx).2 := by
  cases ran : load.run ctx with
  | mk result t => cases result with
    | ok value => exact plain.ok ctx value t start ran
    | error e => exact plain.error ctx e t start ran nofun

theorem squash_plain (plain : Plain root load) (ran : (squashNotfound fext load).run ctx = (.ok (),t))
    (start : Unaliased root ctx) : Unaliased root t := by
  have left : t = (load.run ctx).2 := by
    unfold squashNotfound at ran
    dsimp only at ran
    split at ran
    · rename_i failed
      split at ran
      · cases ran
        rw [failed]
      · cases ran
    · rename_i loaded
      cases ran
      rw [loaded]
  rw [left]
  exact plain_final plain start

theorem loadAll_aliases (ran : (loadAll fs).run ctx = (.ok (),t)) (start : Unaliased root ctx) :
    t.aliasMap = aliased fs root := by
  obtain ⟨_,hard,ranHard,ran⟩ := bind_ok.mp ran
  obtain ⟨_,builtin,ranBuiltin,ran⟩ := bind_ok.mp ran
  obtain ⟨_,soft,ranSoft,ran⟩ := bind_ok.mp ran
  obtain ⟨_,weak,ranWeak,ranAlias⟩ := bind_ok.mp ran
  have afterHard := squash_plain (forLines_plain hardLine_plain) ranHard start
  have afterBuiltin := (forLines_plain builtinLine_plain).ok _ _ _ afterHard (mapErr_ok ranBuiltin)
  have afterSoft := squash_plain (forLines_plain softLine_plain) ranSoft afterBuiltin
  obtain ⟨empty,sameRoot⟩ := squash_plain (forLines_plain weakLine_plain) ranWeak afterSoft
  funext name
  unfold aliased
  rcases loadAliases_ok ranAlias with ⟨present,loaded⟩ | ⟨absent,same⟩
  · rw [sameRoot] at present loaded
    rw [if_pos present,aliasLines_map loaded name,empty]
    cases (linesIn fs root "modules.alias").reverse.findSome? fun line => entryFor name (aliasEntry line) with
    | some target => rfl
    | none => rfl
  · rw [sameRoot] at absent
    rw [if_neg (Bool.eq_false_iff.mp absent),same,empty]

theorem loadAll_modules (ran : (loadAll fs).run ⟨fun _ => none,fun _ => none,root⟩ = (.ok (),t)) :
    t.modulesHash = indexed fs root := by
  obtain ⟨hard,builtin,hardRun,builtinRun,final⟩ := loadAll_stages ran
  funext name
  rw [final name,builtinLines_hash builtinRun name,hardLines_hash hardRun name]
  unfold indexed
  cases found : (linesIn fs root "modules.dep").findSome? fun line => entryFor name (depEntry line) with
  | some m =>
    obtain ⟨line,_,own⟩ := List.exists_of_findSome?_eq_some found
    have entry := entryFor_some.mp own
    dsimp only
    rw [Option.map_some,addSoft_all,addWeak_all]
    unfold depEntry at entry
    obtain ⟨parts,_,made⟩ := Option.map_eq_some_iff.mp entry
    cases made
    simp [withDeps,hardModule]
  | none =>
    dsimp only
    split
    · rw [Option.map_some,addSoft_all,addWeak_all]
      simp [withDeps,builtinModule]
    · rfl

theorem kmodContextNew_index (made : kmodContextNew fs dirname = .ok ctx) :
    ctx.modulesHash = indexed fs dirname ∧ ctx.aliasMap = aliased fs dirname :=
  ⟨loadAll_modules (kmodContextNew_ok made),loadAll_aliases (kmodContextNew_ok made) ⟨rfl,rfl⟩⟩

-- Dashes and underscores.
@[simp] theorem normalName_idem (name : Name) : normalName (normalName name) = normalName name := by
  unfold normalName
  rw [List.map_map]
  refine List.map_congr_left fun b _ => ?_
  by_cases dash : b = 45
  · simp [dash]
  · simp [dash]

theorem extractModuleName_normal (path : Name) : normalName (extractModuleName path) = extractModuleName path :=
  normalName_idem _

-- Every key of the modules is spelled with underscores.
theorem indexed_normal (found : indexed fs root name = some m) : normalName name = name := by
  unfold indexed at found
  split at found
  · rename_i entered
    obtain ⟨line,_,own⟩ := List.exists_of_findSome?_eq_some entered
    obtain ⟨parts,_,made⟩ := Option.map_eq_some_iff.mp (entryFor_some.mp own)
    cases made
    exact extractModuleName_normal _
  · split at found
    · rename_i present
      obtain ⟨line,_,about⟩ := present
      unfold builtinName at about
      split at about
      · cases about
      · cases about
        exact extractModuleName_normal _
    · cases found

theorem find_normalized (normal : normalName name = name) (ctx : KmodContext) : ctx.find name = ctx.lookup name := by
  unfold KmodContext.find
  cases ctx.lookup name with
  | some m => rfl
  | none => simp [normal]

theorem lookup_index {ctx : KmodContext} (made : kmodContextNew fs dirname = .ok ctx) (name : Name) :
    ctx.lookup name = (indexed fs dirname name).or ((aliased fs dirname name).bind (indexed fs dirname)) := by
  obtain ⟨modules,aliases⟩ := kmodContextNew_index made
  unfold KmodContext.lookup
  rw [modules,aliases]
  cases indexed fs dirname name with
  | some m => rfl
  | none => rfl

-- The module files know underscores only; an alias line spells its name as it
-- likes.
theorem spellings_agree (made : kmodContextNew fs dirname = .ok ctx) :
    (∀ a b, normalName a = normalName b → ctx.find a = ctx.find b) ↔
      ∀ dashed target m, normalName dashed ≠ dashed → aliased fs dirname dashed = some target →
        indexed fs dirname target = some m → indexed fs dirname (normalName dashed) = some m ∨
          (indexed fs dirname (normalName dashed) = none ∧
            (aliased fs dirname (normalName dashed)).bind (indexed fs dirname) = some m) := by
  have normalized : ∀ name, ctx.find (normalName name) = ctx.lookup (normalName name) := by
    intro name
    exact find_normalized (normalName_idem name) ctx
  have spelled : ∀ name, normalName name ≠ name →
      ctx.lookup name = (aliased fs dirname name).bind (indexed fs dirname) := by
    intro name dashed
    rw [lookup_index made]
    cases found : indexed fs dirname name with
    | some m => exact absurd (indexed_normal found) dashed
    | none => rfl
  constructor
  · intro same dashed target m differs leads known
    have direct : ctx.find dashed = some m := by
      unfold KmodContext.find
      rw [spelled dashed differs,leads,Option.bind_some,known]
    rw [same dashed (normalName dashed) (normalName_idem dashed).symm,normalized,lookup_index made] at direct
    exact Option.or_eq_some_iff.mp direct
  · intro agrees a b same
    have through : ∀ name, ctx.find name = ctx.lookup (normalName name) := by
      intro name
      by_cases dashed : normalName name = name
      · rw [find_normalized dashed,dashed]
      · unfold KmodContext.find
        cases found : ctx.lookup name with
        | none => rw [if_pos dashed]
        | some m =>
          rw [spelled name dashed] at found
          obtain ⟨target,leads,known⟩ := Option.bind_eq_some_iff.mp found
          rw [lookup_index made]
          exact (Option.or_eq_some_iff.mpr (agrees name target m dashed leads known)).symm
    rw [through a,through b,same]

theorem spellings_agree_sample : ∃ ctx, kmodContextNew indexFileSystem (named "/m") = .ok ctx ∧
    ∀ a b, normalName a = normalName b → ctx.find a = ctx.find b := by
  obtain ⟨ctx,made⟩ := isOk_value indexFileSystem_loads
  refine ⟨ctx,made,(spellings_agree made).mpr ?_⟩
  intro dashed target m _ leads
  have missing : aliased indexFileSystem (named "/m") dashed = none := rfl
  rw [missing] at leads
  cases leads

-- One module and "alias foo-bar m".
def aliasFileSystem : FileSystem :=
  {indexFileSystem with
    fileOpen:=fun p =>
      if p = named "/m/modules.dep" then .ok (⟨0,0,0,1,0,0,0⟩,named "kernel/m.ko:\n")
      else if p = named "/m/modules.builtin" then .ok (⟨0,0,0,1,0,0,0⟩,[])
      else if p = named "/m/modules.alias" then .ok (⟨0,0,0,1,0,0,0⟩,named "alias foo-bar m\n")
      else .error (.ofKind .notFound)
    pathExists:=fun p => p = named "/m/modules.alias"}

theorem alias_one_spelling : ∃ ctx, kmodContextNew aliasFileSystem (named "/m") = .ok ctx ∧
    normalName (named "foo-bar") = normalName (named "foo_bar") ∧
    ctx.find (named "foo-bar") = some ⟨.loadableModule,named "kernel/m.ko",[],[],[],[]⟩ ∧ ctx.find (named "foo_bar") = none := by
  have succeeds : (kmodContextNew aliasFileSystem (named "/m")).isOk = true := by decide +kernel
  obtain ⟨ctx,made⟩ := isOk_value succeeds
  have dash : ctx.lookup (named "foo-bar") = some ⟨.loadableModule,named "kernel/m.ko",[],[],[],[]⟩ := by
    rw [lookup_index made]
    decide +kernel
  have underscore : ctx.lookup (named "foo_bar") = none := by
    rw [lookup_index made]
    decide +kernel
  refine ⟨ctx,made,by decide +kernel,?_,?_⟩
  · unfold KmodContext.find
    rw [dash]
  · rw [find_normalized (by decide +kernel),underscore]

end Rapido.KmodParser

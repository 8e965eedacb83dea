import Rapido.KmodOrder
import Rapido.PathClimbs

-- What the gather functions archive when their destinations stay below the root,
-- or are noticed not to.
namespace Rapido.Cut
open UnixPath Cpio Text KvConf Eff
variable {known : List Component → Prop} {host : Host} {fs : FileSystem} {conf : Map} {dst : Path} {amd : ArchiveMd}

def Level (s : State) : Prop := ∀ c ∈ s.archived, ¬Climbs c.target

-- The only paths in paths_seen that climb are known.
structure Contained (known : List Component → Prop) (s : State) : Prop where
  level : Level s
  seen : ∀ cs ∈ s.pathsSeen, climbsFrom 0 cs = true → known cs

theorem Contained.insert (contained : Contained known s) (fine : climbsFrom 0 cs = true → known cs) :
    Contained known {s with pathsSeen:=cs :: s.pathsSeen} := by
  refine ⟨contained.level,fun x seen climbs => ?_⟩
  rcases List.mem_cons.mp seen with rfl | old
  · exact fine climbs
  · exact contained.seen x old climbs

theorem Contained.mono {more : List Component → Prop} (contained : Contained known s)
    (fine : ∀ cs, climbsFrom 0 cs = true → known cs → more cs) : Contained more s :=
  ⟨contained.level,fun cs seen climbs => fine cs climbs (contained.seen cs seen climbs)⟩

-- ".." is not the last step out of the root, and a parent that climbs is not
-- taken for one that has been walked.
def Guarded (known : List Component → Prop) (dst : Path) : Prop :=
  ¬PopsRoot dst ∧ ∀ q, parent dst = some q → isAbsolute q = true → Climbs q → ¬known (components q)

abbrev Contains (known : List Component → Prop) (act : Gather α) : Prop := Keeps (fun _ => False) (Contained known) act

theorem archive_contained (level : ¬Climbs c.target) : Contains known (archive c) := by
  refine archive_triple (fun s a before _ => ⟨fun d inside => ?_,before.seen⟩) fun _ _ _ before _ _ => ⟨before.level,before.seen⟩
  rcases List.mem_append.mp inside with old | new
  · exact before.level d old
  · exact List.mem_singleton.mp new ▸ level

theorem insertPath_contained (fine : Climbs dst → known (components dst)) : Contains known (insertPath dst) :=
  insertPath_triple (fun _ before _ => before.insert fine) fun _ before _ => before

theorem level_rootPath (valid : ∀ n ∈ here, ValidName n) : ¬Climbs (rootPath here) := by
  unfold Climbs
  rw [components_rootPath valid]
  change ¬climbsFrom 0 (here.map .normal) = true
  rw [climbsFrom_normal]
  exact Bool.noConfusion

theorem dirsLoop_contained (here : List Name) (rest : List Component) (valid : ∀ m ∈ here, ValidName m)
    (names : ∀ m, .normal m ∈ rest → ValidName m) :
    Triple (Contained known) (dirsLoop amd here rest) (fun _ s => Contained known s ∧ climbsFrom here.length rest = false)
      fun _ s => ¬False → Contained known s := by
  induction rest generalizing here with
  | nil => exact .pure fun _ before => ⟨before,by cases here <;> rfl⟩
  | cons c rest ih =>
    have below : ∀ m, .normal m ∈ rest → ValidName m := fun m inside => names m (List.mem_cons_of_mem _ inside)
    cases c with
    | rootDir => exact ih here valid below
    | curDir => exact ih here valid below
    | parentDir =>
      unfold dirsLoop
      split
      · exact .fail fun _ before _ => before
      · rename_i filled
        have shorter : here.length = here.dropLast.length + 1 := by
          have := List.length_pos_iff.mpr filled
          simp
          omega
        refine (ih here.dropLast (fun m inside => valid m ((List.dropLast_prefix here).subset inside)) below).weaken
          (fun _ h => h) fun _ s after => ⟨after.1,?_⟩
        rw [shorter]
        exact after.2
    | normal n =>
      have pushed : ∀ m ∈ here ++ [n], ValidName m := valid_pushed valid (names n List.mem_cons_self)
      have level := level_rootPath pushed
      refine .bind (insertPath_contained fun climbs => absurd climbs level) fun new => ?_
      refine .bind (Keeps.runIf (archive_contained level)) fun _ => ?_
      refine (ih (here ++ [n]) pushed below).weaken (fun _ h => h) fun _ s after => ⟨after.1,?_⟩
      rw [← after.2,List.length_append]
      rfl

-- Once the parents have been walked, or are known to have been, the path itself
-- is below the root.
theorem guarded_level (guarded : ¬PopsRoot dst) (found : parent dst = some q) (rooted : isAbsolute q = true) (level : ¬Climbs q) :
    ¬Climbs dst := by
  intro climbs
  rcases climbs_parent (parent_shorter found rooted).1 climbs with pops | ⟨r,again,_,above⟩
  · exact guarded pops
  · rw [found] at again
    cases again
    exact level above

theorem gatherArchiveDirs_contained (guarded : Guarded known dst) :
    Triple (Contained known) (gatherArchiveDirs (parent dst) amd) (fun _ s => Contained known s ∧ ¬Climbs dst)
      fun _ s => ¬False → Contained known s := by
  unfold gatherArchiveDirs
  split
  · rename_i bare
    exact .pure fun _ before => ⟨before,parent_none bare⟩
  · rename_i q found
    split
    · exact .fail fun _ before _ => before
    · rename_i relative
      have rooted : isAbsolute q = true := by simpa using relative
      refine pathSeen_bind (.pure fun s before => ⟨before.1,?_⟩) ?_
      · exact guarded_level guarded.1 found rooted fun climbs => guarded.2 q found rooted climbs (before.1.seen _ before.2 climbs)
      · refine (dirsLoop_contained [] (components q) (by simp) fun m => components_valid rooted).weaken (fun _ before => before.1) ?_
        rintro _ t ⟨after,walked⟩
        refine ⟨after,guarded_level guarded.1 found rooted fun climbs => ?_⟩
        unfold Climbs at climbs
        change climbsFrom 0 (components q) = false at walked
        rw [walked] at climbs
        cases climbs

theorem archiveNew_contained (guarded : Guarded known dst) (aim : c.target = dst) : Contains known (archiveNew dst amd c) := by
  subst aim
  refine Triple.bind (gatherArchiveDirs_contained guarded) fun _ => .assuming fun level => ?_
  exact Keeps.bind (archive_contained level) fun _ => .bind (insertPath_contained fun climbs => absurd climbs level) fun _ => .pure

-- gather_archive_elfs
theorem level_steps (level : ¬Climbs dst) :
    EntrySteps dst (Contained known) (Contained known) (Contained known) fun _ s => ¬False → Contained known s where
  unresolved := fun _ before => before
  failed := fun _ _ before _ => before
  stopped := fun _ _ before _ => before
  needed := fun _ _ before => ⟨before.level,before.seen⟩
  archived := fun _ aim => archive_contained (aim ▸ level)
  inserted := insertPath_contained fun climbs => absurd climbs level

theorem elfGot_contained (guarded : Guarded known dst) : Contains known (elfGot host ent src dst md rest) := by
  refine EntrySteps.got level_steps (fun _ before _ => before) (fun _ _ before _ _ => before) fun amd => ?_
  exact (gatherArchiveDirs_contained guarded).weaken (fun _ before => before.1) fun _ _ h => h

-- Where an entry that has been found goes.
def entDst (ent : GatherEnt) (got : Fsent) : Path :=
  match ent with
  | .nameDst _ d => d
  | _ => got.path

theorem entDst_plain {ent : GatherEnt} (plain : ∀ n d, ent = .nameDst n d → False) (got : Fsent) : entDst ent got = got.path := by
  unfold entDst
  split
  · rename_i n d
    exact (plain n d rfl).elim
  · rfl

def EntGuarded (fs : FileSystem) (known : List Component → Prop) (ent : GatherEnt) : Prop :=
  ∀ got, pathStat fs ent = .ok got → Guarded known (entDst ent got)

theorem Lands.entDst (lands : Lands ent got dst) : dst = Cut.entDst ent got := by
  cases lands with
  | given absolute => rfl
  | found plain => exact (entDst_plain plain got).symm

theorem elfVisit_contained (guarded : EntGuarded host.toFileSystem known ent) : Contains known (elfVisit host ent rest) := by
  refine elfVisit_triple (fun _ _ _ _ _ before => before) (fun _ _ _ before _ => before) (fun _ before _ => before) ?_
  intro got dst found lands
  exact elfGot_contained (lands.entDst ▸ guarded got found)

-- gather_archive_data
-- An item that skips the parents is below one whose parents have been walked.
structure ItemGuarded (known : List Component → Prop) (item : GatherItem) : Prop where
  absolute : isAbsolute item.dst = true
  walks : item.flags &&& GATHER_ITEM_IGNORE_PARENT = 0 → Guarded known item.dst
  skips : item.flags &&& GATHER_ITEM_IGNORE_PARENT ≠ 0 → ¬Climbs item.dst

theorem dataItem_contained {item : GatherItem} (absolute : isAbsolute item.dst = true) (level : ¬Climbs item.dst) :
    Triple (Contained known) (dataItem fs item amd rest)
      (fun items s => Contained known s ∧ ∀ i ∈ items, i ∈ rest ∨ ItemGuarded known i) fun _ s => ¬False → Contained known s := by
  have archived : ∀ {c : Call}, c.target = item.dst → Triple (Contained known) (archive c)
      (fun _ => Contained known) fun _ s => ¬False → Contained known s := fun aim => archive_contained (aim ▸ level)
  refine dataItem_triple (fun _ aim => archived aim) (fun _ _ _ before _ => before) (fun _ _ _ before _ => before)
    (fun names s listed before => ⟨before,fun i inside => ?_⟩) fun s _ before => ⟨before,fun _ => .inl⟩
  rcases List.mem_append.mp inside with child | old
  · obtain ⟨n,sorted,rfl⟩ := List.mem_map.mp (List.mem_reverse.mp child)
    have valid : ValidName n := fs.readDir_names listed n ((List.mem_insertionSort _).mp sorted)
    have flagged : GATHER_ITEM_IGNORE_PARENT &&& GATHER_ITEM_IGNORE_PARENT ≠ 0 := by decide
    exact .inr ⟨join_absolute absolute,fun flag => absurd flag flagged,fun _ => mt (climbs_child valid).mp level⟩
  · exact .inl old

-- A path is put into paths_seen ahead of its parents. If they do not lead above
-- the root, neither does the path.
def Noted (known : List Component → Prop) (dst : Path) (cs : List Component) : Prop := known cs ∨ cs = components dst

theorem Guarded.noted (guarded : Guarded known dst) : Guarded (Noted known dst) dst := by
  refine ⟨guarded.1,fun q found rooted climbs => ?_⟩
  rintro (old | same)
  · exact guarded.2 q found rooted climbs old
  · have shorter := (parent_shorter found rooted).2
    rw [same] at shorter
    exact absurd shorter (Nat.lt_irrefl _)

theorem Contained.noted (contained : Contained known s) : Contained (Noted known dst) {s with pathsSeen:=components dst :: s.pathsSeen} :=
  (contained.mono fun _ _ => .inl).insert fun _ => .inr rfl

theorem Contained.settled (contained : Contained (Noted known dst) s) (fine : Climbs dst → known (components dst)) : Contained known s := by
  refine contained.mono fun cs climbs either => ?_
  rcases either with old | rfl
  · exact old
  · exact fine climbs

theorem dataVisit_contained {item : GatherItem} (guarded : ItemGuarded known item) :
    Triple (Contained known) (dataVisit fs item rest)
      (fun items s => Contained known s ∧ ∀ i ∈ items, i ∈ rest ∨ ItemGuarded known i) fun _ => Level := by
  have inner : ∀ amd, Triple (fun s => Contained known s ∧ ¬Climbs item.dst) (dataItem fs item amd rest)
      (fun items s => Contained known s ∧ ∀ i ∈ items, i ∈ rest ∨ ItemGuarded known i) fun _ => Level :=
    fun _ => .assuming fun level => (dataItem_contained guarded.absolute level).relax fun _ s left => (left id).level
  refine dataVisit_triple (fun _ _ _ before => before.level) (fun _ _ _ before _ => before.level)
    (fun s before _ => ⟨before,fun _ => .inl⟩) (fun amd walks => ?_) (fun skips s before _ => ?_) fun _ amd _ _ => inner amd
  · refine ((gatherArchiveDirs_contained (guarded.walks walks).noted).weaken ?_ ?_).relax fun _ s left => (left id).level
    · rintro _ ⟨s,before,_,rfl⟩
      exact before.noted
    · rintro _ s ⟨after,level⟩
      exact ⟨after.settled fun climbs => absurd climbs level,level⟩
  · have level := guarded.skips skips
    exact ⟨before.noted.settled fun climbs => absurd climbs level,level⟩

def ItemsContained (known : List Component → Prop) (items : List GatherItem) (s : State) : Prop :=
  Contained known s ∧ ∀ i ∈ items, ItemGuarded known i

theorem dataLoop_contained (fuel : Nat) (items : List GatherItem) :
    Triple (ItemsContained known items) (Worklist.loop spent (dataVisit fs) fuel items) (fun _ => Contained known) fun _ => Level := by
  refine (Worklist.loop_triple (ItemsContained known) (fun _ _ before => before.1.level) (fun item rest => ?_) fuel items).weaken
    (fun _ h => h) fun _ _ after => after.1
  refine .assuming fun guarded => ?_
  refine (dataVisit_contained (guarded item List.mem_cons_self)).weaken (fun _ h => h) fun items s after => ⟨after.1,fun i inside => ?_⟩
  rcases after.2 i inside with old | new
  · exact guarded i (List.mem_cons_of_mem _ old)
  · exact new

-- Kernel modules: every failure leaves the names below the root, and after a
-- NotFound the callers go on.
def Ends (known : List Component → Prop) (e : IoError) (s : State) : Prop := Level s ∧ (e.kind = .notFound → Contained known s)

-- The path of a missing file stays in paths_seen.
structure FileGuarded (fs : FileSystem) (known : List Component → Prop) (src dst : Path) : Prop where
  guarded : Guarded known dst
  missing : ¬Present fs src → known (components dst)

theorem archiveKmodPath_contained (file : FileGuarded fs known src dst) :
    Triple (Contained (Noted known dst)) (archiveKmodPath fs src dst) (fun _ => Contained known) (Ends known) := by
  have walked : Triple (Contained (Noted known dst)) (archiveKmodPath fs src dst) (fun _ => Contained known)
      fun _ s => ¬False → Contained (Noted known dst) s := by
    refine .ofExcept_bind (fun md _ => .bind archiveMd_keeps fun amd => ?_) fun _ _ _ before _ => before
    refine .bind (gatherArchiveDirs_contained file.guarded.noted) fun _ => .assuming fun level => ?_
    refine .ofExcept_bind (fun ⟨_,bytes⟩ _ => ?_) fun _ _ _ before _ => before
    have put : Contains (Noted known dst) (archive (.file dst amd bytes)) := archive_contained level
    exact put.weaken (fun _ h => h) fun _ s after => after.settled fun climbs => absurd climbs level
  refine ⟨walked.ok,fun s e t before ran => ?_⟩
  have left := walked.error s e t before ran id
  refine ⟨left.level,fun missing => left.settled fun _ => file.missing fun present => ?_⟩
  exact (archiveKmodPath_never present).error s e t trivial ran missing

theorem insertNew_contained {act : Gather Unit} (ran : Triple (Contained (Noted known dst)) act (fun _ => Contained known) (Ends known)) :
    Triple (Contained known) (insertPath dst >>= fun new => Eff.runIf (new = true) act) (fun _ => Contained known) (Ends known) := by
  refine insertPath_bind (.runIf (fun _ => ran.weaken ?_ fun _ _ h => h) fun no => absurd rfl no) ?_
  · rintro _ ⟨s,before,_,rfl⟩
    exact before.noted
  · exact .runIf (fun yes => absurd yes Bool.noConfusion) fun _ s before => before.1

theorem ignoreNotFound_contained (file : FileGuarded fs known src dst) :
    Triple (Contained (Noted known dst)) (ignoreNotFound (archiveKmodPath fs src dst)) (fun _ => Contained known) (Ends known) :=
  ignoreNotFound_triple (archiveKmodPath_contained file) (fun _ _ missing ends => ends.2 missing) fun _ _ _ ends => ends

abbrev RelGuarded (fs : FileSystem) (known : List Component → Prop) (gk : GatherKmods) (rel : Name) : Prop :=
  FileGuarded fs known (join gk.kmodCtx.moduleRoot rel) (join gk.kmodDstRoot rel)

theorem archiveSoftDep_contained (file : ∀ rel, softFile gk softMod = some rel → RelGuarded fs known gk rel) :
    Triple (Contained known) (archiveSoftDep fs gk softMod) (fun _ => Contained known) (Ends known) := by
  refine archiveSoftDep_triple fun m found other => ?_
  exact insertNew_contained (ignoreNotFound_contained (file m.relPath (by simp [softFile,found,other])))

-- The files that a request names.
def requestFiles (gk : GatherKmods) (name : Name) : List Name :=
  match gk.kmodCtx.find name with
  | none => []
  | some m => if m.status = .builtin then [] else moduleFiles gk m

theorem kmodAndDeps_contained (files : ∀ rel ∈ requestFiles gk name, RelGuarded fs known gk rel) :
    Triple (Contained known) (gatherArchiveKmodAndDeps fs name gk) (fun _ => Contained known) (Ends known) := by
  have listed : ∀ m, gk.kmodCtx.find name = some m → m.status ≠ .builtin → ∀ rel ∈ moduleFiles gk m, RelGuarded fs known gk rel := by
    intro m found other rel inside
    apply files rel
    unfold requestFiles
    rw [found]
    simpa [other] using inside
  refine kmodAndDeps_triple (fun _ _ before => ⟨before.level,fun _ => before⟩) (fun m found other => ?_)
    (fun m found other dep inside => ?_) fun m found other softMod inside => ?_
  · refine (archiveKmodPath_contained (listed m found other m.relPath List.mem_cons_self)).weaken ?_ fun _ _ h => h
    rintro _ ⟨s,before,_,rfl⟩
    exact before.noted
  · have file := listed m found other dep (List.mem_cons_of_mem _ (List.mem_append_left _ inside))
    exact insertNew_contained (archiveKmodPath_contained file)
  · refine archiveSoftDep_contained fun rel file => listed m found other rel ?_
    exact List.mem_cons_of_mem _ (List.mem_append_right _ (List.mem_filterMap.mpr ⟨softMod,inside,file⟩))

theorem gatherOneKmod_contained (files : ∀ rel ∈ requestFiles gk name, RelGuarded fs known gk rel) (ignoreMissing : Bool) :
    Triple (Contained known) (gatherOneKmod fs gk ignoreMissing name) (fun _ => Contained known) fun _ => Level :=
  gatherOneKmod_triple (kmodAndDeps_contained files) (fun _ _ missing ends => ends.2 missing) (fun _ _ _ _ ends => ends.1)
    (fun _ _ _ ends => ends.1) ignoreMissing

-- What GatherKmods::init makes, and the modules that a directive uses.
def kmodsFor (host : Host) (conf : Map) : Option GatherKmods :=
  match confSrcOrHostKernelVers host.toFileSystem conf with
  | .error _ => none
  | .ok krel =>
    let dstRoot := join (Utf8.encode "/usr/lib/modules/".toList) (Utf8.encode krel)
    match kmodContextFor host conf krel dstRoot with
    | .error _ => none
    | .ok ctx => some ⟨dstRoot,ctx⟩

def kmodsInUse (host : Host) (conf : Map) (s : State) : Option GatherKmods :=
  match s.gk with
  | some gk => some gk
  | none => kmodsFor host conf

-- The data files are archived with the first modules.
def dbFiles (s : State) : List Name :=
  match s.gk with
  | some _ => []
  | none => MODULE_DB_FILES

theorem gatherKmodsInit_contained
    (files : ∀ gk, kmodsFor host conf = some gk → ∀ rel ∈ MODULE_DB_FILES, RelGuarded host.toFileSystem known gk rel) :
    Triple (Contained known) (gatherKmodsInit host conf) (fun gk s => Contained known s ∧ kmodsFor host conf = some gk) fun _ => Level := by
  refine .ofExcept_bind (fun krel version => ?_) fun _ _ _ before => before.level
  dsimp only
  split
  · exact .fail fun _ before => before.level
  · rename_i ctx made
    have here : kmodsFor host conf = some ⟨join (Utf8.encode "/usr/lib/modules/".toList) (Utf8.encode krel),ctx⟩ := by
      unfold kmodsFor
      rw [version]
      dsimp only
      rw [made]
    refine .bind (.forEach fun rel inside => ?_) fun _ => .pure fun s before => ⟨before,here⟩
    exact (insertNew_contained (ignoreNotFound_contained (files _ here rel inside))).relax fun _ _ ends => ends.1

theorem knownKmods_contained (start : State)
    (files : ∀ gk, kmodsInUse host conf start = some gk → ∀ rel ∈ dbFiles start, RelGuarded host.toFileSystem known gk rel) :
    Triple (fun s => Contained known s ∧ s = start) (knownKmods host conf)
      (fun gk s => Contained known s ∧ kmodsInUse host conf start = some gk) fun _ => Level := by
  refine .read_bind fun found => ?_
  unfold kmodsInUse dbFiles at *
  cases found with
  | some gk =>
    refine .pure ?_
    rintro s ⟨⟨before,rfl⟩,known⟩
    exact ⟨before,by rw [known]⟩
  | none =>
    refine .given fun s ⟨⟨before,same⟩,unknown⟩ => ?_
    subst same
    rw [unknown] at files ⊢
    refine .bind ((gatherKmodsInit_contained files).weaken ?_ fun _ _ h => h) fun gk => ?_
    · rintro t rfl
      exact before
    · exact .bind (.update fun t after => ⟨⟨after.1.level,after.1.seen⟩,after.2⟩) fun _ => .pure fun _ h => h

-- autorun
theorem pad3_no_slash (n : Nat) : slash ∉ Utf8.encode (pad3 n) := by
  intro member
  have char : '/' ∈ pad3 n := Utf8.mem_encode_ascii member (by decide)
  unfold pad3 List.leftpad at char
  rcases List.mem_append.mp char with zero | digit
  · exact absurd (List.eq_of_mem_replicate zero) (by decide)
  · exact absurd (Radix.toDigits_bounds digit).1 (by decide)

theorem fileName_valid (absolute : isAbsolute src = true) (named : fileName src = some n) : ValidName n := by
  unfold fileName at named
  split at named
  · rename_i name last
    cases named
    exact components_valid absolute (List.mem_of_getLast? last)
  · cases named

theorem autorunDst_level (absolute : isAbsolute src = true) (made : autorunDst src idx = .ok dst) : ¬Climbs dst := by
  unfold autorunDst at made
  split at made
  · cases made
  · rename_i n named
    split at made
    · cases made
      have valid := fileName_valid absolute named
      have shape : AUTORUN_DIR ++ slash :: Utf8.encode (pad3 idx.toNat) ++ 45 :: n =
          rootPath [Utf8.encode "rapido_autorun".toList,Utf8.encode (pad3 idx.toNat) ++ 45 :: n] := by
        unfold rootPath unsegments
        rw [List.intercalate_cons_cons,List.intercalate_singleton,List.append_assoc]
        rfl
      have dash : (45 : UInt8) ∈ Utf8.encode (pad3 idx.toNat) ++ 45 :: n := List.mem_append_right _ List.mem_cons_self
      rw [shape]
      refine level_rootPath fun name inside => ?_
      rcases List.mem_cons.mp inside with rfl | inside
      · exact ⟨by decide,by decide,by decide,by decide⟩
      · rw [List.mem_singleton.mp inside]
        refine ⟨List.ne_nil_of_mem dash,fun member => ?_,?_,?_⟩
        · rcases List.mem_append.mp member with digit | later
          · exact pad3_no_slash _ digit
          · rcases List.mem_cons.mp later with same | later
            · exact absurd same (by decide)
            · exact valid.2.1 later
        · intro same
          rw [same] at dash
          exact absurd dash (by decide)
        · intro same
          rw [same] at dash
          exact absurd dash (by decide)
    · cases made

theorem manifestAutorun_contained : Contains known (manifestAutorun fs conf name) := by
  have directory : ¬Climbs AUTORUN_DIR := by decide
  refine Triple.ofExcept_bind (fun src made => ?_) fun _ _ _ before _ => before
  refine Keeps.bind .read fun idx => Triple.ofExcept_bind (fun dst named => ?_) fun _ _ _ before _ => before
  have level := autorunDst_level (nameSubAbsPath_absolute made) named
  refine Keeps.bind (.runIf ?_) fun _ => .bind .ofExcept fun ⟨_,bytes⟩ => .bind archiveMd_keeps fun amd => ?_
  · exact .bind (archive_contained directory) fun _ => .bind (insertPath_contained fun climbs => absurd climbs directory) fun _ => .pure
  · exact .bind (archive_contained level) fun _ => Triple.update fun s before => ⟨before.level,before.seen⟩

-- The directives
theorem manifestDir_contained (guarded : ∀ p, manifestNameSubAbsPath fs conf name = .ok p → Guarded known p) :
    Contains known (manifestDir fs conf name) := by
  refine Triple.ofExcept_bind (fun p made => Keeps.bind pathSeen_keeps fun seen => ?_) fun _ _ _ before _ => before
  split
  · exact .pure
  · exact archiveNew_contained (guarded p made) rfl

theorem manifestSlink_contained (guarded : ∀ p, manifestNameSubAbsPath fs conf name = .ok p → Guarded known p) :
    Contains known (manifestSlink fs conf name slinkTgt) := by
  refine Triple.ofExcept_bind (fun p made => Keeps.bind pathSeen_keeps fun seen => ?_) fun _ _ _ before _ => before
  split
  · exact .pure
  · exact .bind .ofExcept fun _ => archiveNew_contained (guarded p made) rfl

theorem manifestFile_contained (guarded : ∀ p, manifestNameSubAbsPath fs conf name = .ok p → Guarded known p) :
    Contains known (manifestFile fs conf name src) := by
  refine Triple.ofExcept_bind (fun p made => Keeps.bind pathSeen_keeps fun seen => ?_) fun _ _ _ before _ => before
  split
  · exact .pure
  · cases src with
    | some location =>
      exact .bind .ofExcept fun _ => .bind .ofExcept fun ⟨_,_⟩ => .bind archiveMd_keeps fun _ => archiveNew_contained (guarded p made) rfl
    | none => exact archiveNew_contained (guarded p made) rfl

theorem manifestTree_contained (guarded : ∀ p, manifestNameSubAbsPath fs conf name = .ok p → Guarded known p) :
    Triple (Contained known) (manifestTree fs conf fuel name src) (fun _ => Contained known) fun _ => Level := by
  refine .ofExcept_bind (fun dst made => ?_) fun _ _ _ before => before.level
  split
  · exact .fail fun _ before => before.level
  · refine .ofExcept_bind (fun src _ => ?_) fun _ _ _ before => before.level
    refine (dataLoop_contained fuel _).weaken (fun s before => ⟨before,fun i only => ?_⟩) fun _ _ h => h
    cases List.mem_singleton.mp only
    have unflagged : (0 : UInt32) &&& GATHER_ITEM_IGNORE_PARENT = 0 := by decide
    exact ⟨nameSubAbsPath_absolute made,fun _ => guarded dst made,fun flag => absurd unflagged flag⟩

-- What a request may find in paths_seen, or leave there without an entry.
def kmodKnown (host : Host) (conf : Map) (name : Name) (s : State) (cs : List Component) : Prop :=
  cs ∈ s.pathsSeen ∨ ∃ gk rel, kmodsInUse host conf s = some gk ∧ rel ∈ dbFiles s ++ requestFiles gk name ∧
    ¬Present host.toFileSystem (join gk.kmodCtx.moduleRoot rel) ∧ moduleDst gk rel = cs

def KmodGuarded (host : Host) (conf : Map) (name : Name) (s : State) : Prop :=
  ∀ gk, kmodsInUse host conf s = some gk → ∀ rel ∈ dbFiles s ++ requestFiles gk name,
    Guarded (kmodKnown host conf name s) (join gk.kmodDstRoot rel)

theorem KmodGuarded.files (guarded : KmodGuarded host conf name s) (used : kmodsInUse host conf s = some gk)
    (inside : rel ∈ dbFiles s ++ requestFiles gk name) : RelGuarded host.toFileSystem (kmodKnown host conf name s) gk rel :=
  ⟨guarded gk used rel inside,fun missing => .inr ⟨gk,rel,used,inside,missing,rfl⟩⟩

theorem gatherArchiveKmods_contained (start : State) (guarded : KmodGuarded host conf name start) (ignoreMissing : Bool) :
    Triple (fun s => Contained (kmodKnown host conf name start) s ∧ s = start) (gatherArchiveKmods host conf [name] ignoreMissing)
      (fun _ => Contained (kmodKnown host conf name start)) fun _ => Level := by
  refine .bind (knownKmods_contained start fun gk used rel inside => guarded.files used (List.mem_append_left _ inside)) fun gk => ?_
  refine .assuming fun used => .forEach fun other only => ?_
  rw [List.mem_singleton.mp only]
  exact gatherOneKmod_contained (fun rel inside => guarded.files used (List.mem_append_right _ inside)) ignoreMissing

-- The condition on a directive in the state before it.
def DstGuarded (host : Host) (conf : Map) (s : State) (args : List Str) : Prop :=
  ∀ p, manifestNameSubAbsPath host.toFileSystem conf args[0]? = .ok p → Guarded (· ∈ s.pathsSeen) p

def ElfsGuarded (host : Host) (s : State) (ent : GatherEnt) : Prop :=
  Worklist.Meets (elfVisit host) (fun ent _ _ => EntGuarded host.toFileSystem (· ∈ s.pathsSeen) ent) [ent] s

def DirectiveGuarded (host : Host) (conf : Map) (s : State) : Etype → List Str → Prop
  | .dir,args => DstGuarded host conf s args
  | .slink,args => DstGuarded host conf s args
  | .file,args => DstGuarded host conf s args
  | .tree,args => DstGuarded host conf s args
  | .bin,args => ∀ n, manifestNameSub conf args[0]? = .ok n → ElfsGuarded host s (.name n)
  | .tryBin,args => ∀ n, manifestNameSub conf args[0]? = .ok n → ElfsGuarded host s (.nameTry n)
  | .kmod,args => ∀ name, args[0]? = some name → KmodGuarded host conf (Utf8.encode name) s
  | .tryKmod,args => ∀ name, args[0]? = some name → KmodGuarded host conf (Utf8.encode name) s
  | .autorun,_ => True
  | .filter,_ => True
  | .includeManifest,_ => True

-- The state of a step's start, with its paths known.
theorem Level.contained (level : Level s) : Contained (· ∈ s.pathsSeen) s := ⟨level,fun _ seen _ => seen⟩

theorem Contains.level (contains : Contains known act) (start : Contained known s) :
    Triple (fun t => t = s) act (fun _ => Level) fun _ => Level where
  ok := by
    rintro _ value t rfl ran
    exact (contains.ok _ value t start ran).level
  error := by
    rintro _ e t rfl ran
    exact (contains.error _ e t start ran id).level

theorem elfs_level (guarded : ElfsGuarded host s ent) (level : Level s) :
    Triple (fun t => t = s) (gatherArchiveElfs host fuel [ent]) (fun _ => Level) fun _ => Level := by
  have loop : Triple (fun t => Contained (· ∈ s.pathsSeen) t ∧
      Worklist.Meets (elfVisit host) (fun ent _ _ => EntGuarded host.toFileSystem (· ∈ s.pathsSeen) ent) [ent] t)
      (gatherArchiveElfs host fuel [ent]) (fun _ => Contained (· ∈ s.pathsSeen)) fun _ => Level := by
    refine Worklist.loop_meeting (fun _ => Contained (· ∈ s.pathsSeen)) (fun _ _ before => before.level) (fun ent rest t before here => ?_) fuel [ent]
    refine ((elfVisit_contained here).relax fun _ _ left => (left id).level).weaken ?_ fun _ _ h => h
    rintro _ rfl
    exact before
  refine loop.weaken ?_ fun _ _ after => after.level
  rintro _ rfl
  exact ⟨level.contained,guarded⟩

theorem manifestKmod_level (guarded : ∀ name, kmod = some name → KmodGuarded host conf (Utf8.encode name) s) (level : Level s)
    (ignoreMissing : Bool) : Triple (fun t => t = s) (manifestKmod host conf ignoreMissing kmod) (fun _ => Level) fun _ => Level := by
  unfold manifestKmod
  split
  · exact .fail fun _ same => same ▸ level
  · rename_i name
    refine (gatherArchiveKmods_contained s (guarded name rfl) ignoreMissing).weaken ?_ fun _ _ after => after.level
    rintro _ rfl
    exact ⟨⟨level,fun _ seen _ => .inl seen⟩,rfl⟩

theorem directive_level (guarded : DirectiveGuarded host conf s etype args) (level : Level s) :
    Triple (fun t => t = s) (directive host conf fuel etype args) (fun _ => Level) fun _ => Level := by
  have contained := level.contained
  cases etype with
  | dir => exact Contains.level (.bind (manifestDir_contained guarded) fun _ => .pure) contained
  | slink => exact Contains.level (.bind (manifestSlink_contained guarded) fun _ => .pure) contained
  | file => exact Contains.level (.bind (manifestFile_contained guarded) fun _ => .pure) contained
  | includeManifest =>
    refine Contains.level (.bind ?_ fun _ => .pure) contained
    exact .bind .ofExcept fun _ => .bind .ofExcept fun _ => .bind .ofExcept fun ⟨_,_⟩ => .pure
  | autorun =>
    refine Contains.level (.bind ?_ fun _ => .pure) contained
    exact .bind .read fun _ => .bind (.forEach (fun _ => manifestAutorun_contained) _) fun _ => .bind .read fun _ => .runIf .fail
  | tree =>
    refine .bind ((manifestTree_contained guarded).weaken ?_ fun _ _ after => after.level) fun _ => .pure fun _ h => h
    rintro _ rfl
    exact contained
  | bin =>
    refine .ofExcept_bind (fun n substituted => ?_) fun _ _ _ same => same ▸ level
    exact .bind (elfs_level (guarded n substituted) level) fun _ => .pure fun _ h => h
  | tryBin =>
    refine .ofExcept_bind (fun n substituted => ?_) fun _ _ _ same => same ▸ level
    exact .bind (elfs_level (guarded n substituted) level) fun _ => .pure fun _ h => h
  | kmod => exact .bind (manifestKmod_level guarded level false) fun _ => .pure fun _ h => h
  | tryKmod => exact .bind (manifestKmod_level guarded level true) fun _ => .pure fun _ h => h
  | filter =>
    refine .ofExcept_bind (fun p _ => ?_) fun _ _ _ same => same ▸ level
    have insert : Triple (fun t => t = s) (insertPath p) (fun _ => Level) fun _ => Level := by
      refine insertPath_triple ?_ ?_
      · rintro _ rfl _
        exact level
      · rintro _ rfl _
        exact level
    exact .bind insert fun _ => .pure fun _ h => h

theorem handleStep_level (guarded : ∀ etype args, step = .line etype args → DirectiveGuarded host conf s etype args) (level : Level s) :
    Triple (fun t => t = s) (handleStep host conf fuel step) (fun _ => Level) fun _ => Level := by
  cases step with
  | refused e => exact .fail fun _ same => same ▸ level
  | line etype args =>
    refine .bind (directive_level (guarded etype args rfl) level) fun ⟨trail,_⟩ => ?_
    dsimp only
    split
    · exact .fail fun _ h => h
    · exact .pure fun _ h => h

end Rapido.Cut

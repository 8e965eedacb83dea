import Rapido.AbsolutePaths
import Rapido.CutMain

-- The names that paths have in the archive, and the paths in paths_seen.
namespace Rapido.Cpio
open UnixPath

-- The root and "." are all that a path has besides its body.
theorem bare_iff (p : Path) : (∀ c ∈ components p, c = .rootDir ∨ c = .curDir) ↔ body p = [] := by
  constructor
  · intro bare
    refine List.eq_nil_iff_forall_not_mem.mpr fun c inside => ?_
    rcases body_kinds inside with rfl | ⟨name,rfl,_⟩
    · rcases bare .parentDir (List.mem_append_right _ inside) with same | same <;> cases same
    · rcases bare (.normal name) (List.mem_append_right _ inside) with same | same <;> cases same
  · intro empty c inside
    unfold components at inside
    rw [empty,List.append_nil] at inside
    split_ifs at inside
    · exact .inl (List.mem_singleton.mp inside)
    · exact .inr (List.mem_singleton.mp inside)
    · cases inside

-- Where a prefix is kept, nothing else is there.
theorem trimmedName_kept (empty : body p = []) : trimmedName p = p := by
  rw [trimmedName_eq,if_neg]
  rintro ⟨opened,filled⟩
  exact filled ((trimBody_nil_iff _).mpr ((body_opened opened).trans empty))

theorem trimmedName_closed (filled : body p ≠ []) : (isAbsolute (trimmedName p) || includeCurDir (trimmedName p)) = false := by
  rw [trimmedName_eq]
  split
  · rw [isAbsolute_trimBody,includeCurDir_trimBody]
    rfl
  · rename_i kept
    rw [← Bool.not_eq_true]
    intro opened
    refine kept ⟨opened,fun none => filled ?_⟩
    rw [← body_opened opened]
    exact (trimBody_nil_iff _).mp none

theorem body_trimmedName (p : Path) : body (trimmedName p) = body p := by
  rw [trimmedName_eq]
  split
  · rename_i cut
    rw [body_trimBody,body_opened cut.1]
  · rfl

theorem trimmedName_twice (p : Path) : trimmedName (trimmedName p) = trimmedName p := by
  by_cases empty : body p = []
  · rw [trimmedName_kept empty,trimmedName_kept empty]
  · rw [trimmedName_eq (trimmedName p),trimmedName_closed empty]
    exact if_neg fun cut => Bool.noConfusion cut.1

structure Canonical (path : Path) (name : List UInt8) : Prop where
  short : name.length ≤ 4094
  relative : (∀ c ∈ components path, c = .rootDir ∨ c = .curDir) ∨ ¬[slash] <+: name ∧ ¬[dot,slash] <+: name
  again : pathTrimPrefixes name = .ok name

theorem closed_prefixes (closed : (isAbsolute name || includeCurDir name) = false) : ¬[slash] <+: name ∧ ¬[dot,slash] <+: name := by
  obtain ⟨relative,undotted⟩ := Bool.or_eq_false_iff.mp closed
  constructor
  · rintro ⟨rest,rfl⟩
    cases relative
  · rintro ⟨rest,rfl⟩
    cases undotted

theorem trim_canonical (trimmed : pathTrimPrefixes path = .ok name) : Canonical path name := by
  have bound := trim_short trimmed
  have shown := trim_name trimmed
  refine ⟨?_,?_,?_⟩
  · unfold PATH_MAX at bound
    omega
  · by_cases empty : body path = []
    · exact .inl ((bare_iff path).mpr empty)
    · exact .inr (closed_prefixes (shown ▸ trimmedName_closed empty))
  · have twice : trimmedName name = name := by rw [shown,trimmedName_twice]
    exact trim_ok_iff.mpr ⟨twice.symm,by rwa [twice]⟩

-- The components of an absolute path, or of the empty one.
def KeyRooted (cs : List Component) : Prop := cs = [] ∨ cs.head? = some .rootDir

theorem absolute_rooted (absolute : isAbsolute p = true) : KeyRooted (components p) := by
  rw [components_absolute absolute]
  exact .inr rfl

-- Different paths have different names among these.
def NamesApart (known : Path → Prop) : Prop :=
  ∀ p q a b, known p → known q → components p ≠ components q → pathTrimPrefixes p = .ok a → pathTrimPrefixes q = .ok b → a ≠ b

theorem NamesApart.mono {known more : Path → Prop} (apart : NamesApart more) (fine : ∀ p, known p → more p) : NamesApart known :=
  fun p q a b first second => apart p q a b (fine p first) (fine q second)

theorem keyRooted_body (rooted : KeyRooted (components p)) (filled : body p ≠ []) : components p = .rootDir :: body p := by
  unfold components at rooted ⊢
  rcases rooted with empty | first
  · exact absurd (List.append_eq_nil_iff.mp empty).2 filled
  · split_ifs at first ⊢ with absolute here
    · rfl
    · cases first
    · obtain ⟨rest,shape⟩ := List.head?_eq_some_iff.mp first
      rw [List.nil_append] at shape
      rcases body_kinds (shape ▸ List.mem_cons_self : Component.rootDir ∈ body p) with same | ⟨name,same,_⟩ <;> cases same

theorem rooted_apart : NamesApart fun p => KeyRooted (components p) := by
  rintro p q a _ first second differ trimmed other rfl
  have same : trimmedName p = trimmedName q := (trim_name trimmed).symm.trans (trim_name other)
  have bodies : body p = body q := by rw [← body_trimmedName p,same,body_trimmedName]
  apply differ
  by_cases empty : body p = []
  · rw [trimmedName_kept empty,trimmedName_kept (bodies ▸ empty)] at same
    rw [same]
  · rw [keyRooted_body first empty,keyRooted_body second (bodies ▸ empty),bodies]

end Rapido.Cpio

namespace Rapido.Cut
open UnixPath Cpio Text KvConf Eff
variable {host : Host} {fs : FileSystem} {conf : Map} {dst : Path} {amd : ArchiveMd}

-- A destination that is not absolute gets no further than its parents, so it
-- never comes into paths_seen. The empty path has none.
structure Keyed (s : State) : Prop where
  keys : ∀ cs ∈ s.pathsSeen, KeyRooted cs
  kmods : KmodsRooted s

theorem Keyed.insert (keyed : Keyed s) (rooted : KeyRooted cs) : Keyed {s with pathsSeen:=cs :: s.pathsSeen} := by
  refine ⟨fun other inside => ?_,keyed.kmods⟩
  rcases List.mem_cons.mp inside with rfl | old
  · exact rooted
  · exact keyed.keys other old

theorem archive_keyed : Maintains Keyed (archive c) :=
  archive_triple (fun _ _ before _ => ⟨before.keys,before.kmods⟩) fun _ _ _ before _ => ⟨before.keys,before.kmods⟩

theorem insertPath_keyed (rooted : KeyRooted (components dst)) : Maintains Keyed (insertPath dst) :=
  insertPath_triple (fun _ before _ => before.insert rooted) fun _ before _ => before

theorem pathSeen_keyed : Maintains Keyed (pathSeen dst) := .read fun _ h => h

theorem parent_unrooted (unrooted : ¬KeyRooted (components dst)) : ∃ q, parent dst = some q ∧ isAbsolute q = false := by
  cases found : parent dst with
  | none =>
    rcases parent_bare found with root | empty
    · exact absurd (.inr (by rw [root]; rfl)) unrooted
    · exact absurd (.inl empty) unrooted
  | some q =>
    refine ⟨q,rfl,Bool.eq_false_iff.mpr fun absolute => unrooted ?_⟩
    exact absolute_rooted (parent_shorter found absolute).1

theorem gatherArchiveDirs_keyed :
    Triple Keyed (gatherArchiveDirs (parent dst) amd) (fun _ s => Keyed s ∧ KeyRooted (components dst)) fun _ => Keyed := by
  by_cases rooted : KeyRooted (components dst)
  · refine Triple.weaken (gatherArchiveDirs_triple (fun _ _ _ _ h => h) (fun _ h => h) fun dir => ?_) (fun _ h => h)
      fun _ _ after => ⟨after,rooted⟩
    exact .bind (insertPath_keyed (absolute_rooted (isAbsolute_cons _))) fun _ => .runIf (fun _ => archive_keyed) fun _ _ h => h
  · obtain ⟨q,found,relative⟩ := parent_unrooted rooted
    rw [found]
    unfold gatherArchiveDirs
    dsimp only
    rw [if_pos relative]
    exact .fail fun _ h => h

theorem archiveNew_keyed : Maintains Keyed (archiveNew dst amd c) :=
  .bind gatherArchiveDirs_keyed fun _ => .assuming fun rooted =>
    .bind archive_keyed fun _ => .bind (insertPath_keyed rooted) fun _ => .pure fun _ h => h

-- gather_archive_elfs
theorem keyed_steps (rooted : KeyRooted (components dst)) : EntrySteps dst Keyed Keyed Keyed fun _ => Keyed where
  unresolved := fun _ before => before
  failed := fun _ _ before => before
  stopped := fun _ _ before => before
  needed := fun _ _ before => ⟨before.keys,before.kmods⟩
  archived := fun _ _ => archive_keyed
  inserted := insertPath_keyed rooted

theorem elfGot_keyed : Maintains Keyed (elfGot host ent src dst md rest) := by
  refine EntrySteps.got keyed_steps (fun _ before _ => before) (fun _ _ before _ => before) fun amd => ?_
  exact gatherArchiveDirs_keyed.weaken (fun _ before => before.1) fun _ _ h => h

theorem elfVisit_keyed (ent : GatherEnt) (rest : List GatherEnt) : Maintains Keyed (elfVisit host ent rest) :=
  elfVisit_triple (fun _ _ _ _ _ before => before) (fun _ _ _ before => before) (fun _ before => before)
    fun _ _ _ _ => elfGot_keyed

theorem gatherArchiveElfs_keyed : Maintains Keyed (gatherArchiveElfs host fuel elfs) :=
  Worklist.loop_triple (fun _ => Keyed) (fun _ _ h => h) elfVisit_keyed fuel elfs.reverse

-- gather_archive_data: an item is inserted ahead of its parents.
def KeyedItems (items : List GatherItem) (s : State) : Prop := Keyed s ∧ ∀ i ∈ items, isAbsolute i.dst = true

theorem dataItem_keyed {item : GatherItem} (rooted : ∀ i ∈ item :: rest, isAbsolute i.dst = true) :
    Triple Keyed (dataItem fs item amd rest) KeyedItems fun _ => Keyed := by
  have kept : ∀ i ∈ rest, isAbsolute i.dst = true := fun i inside => rooted i (List.mem_cons_of_mem _ inside)
  refine dataItem_triple (fun _ _ => archive_keyed) (fun _ _ _ before => before) (fun _ _ _ before => before)
    (fun names s _ after => ⟨after,fun i inside => ?_⟩) fun s _ after => ⟨after,kept⟩
  rcases List.mem_append.mp inside with child | old
  · obtain ⟨n,_,rfl⟩ := List.mem_map.mp (List.mem_reverse.mp child)
    exact join_absolute (rooted item List.mem_cons_self)
  · exact kept i old

theorem dataVisit_keyed (item : GatherItem) (rest : List GatherItem) :
    Triple (KeyedItems (item :: rest)) (dataVisit fs item rest) KeyedItems fun _ => Keyed := by
  refine .assuming fun rooted => ?_
  have key : KeyRooted (components item.dst) := absolute_rooted (rooted item List.mem_cons_self)
  refine dataVisit_triple (fun _ _ _ before => before) (fun _ _ _ before _ => before)
    (fun _ before _ => ⟨before,fun i inside => rooted i (List.mem_cons_of_mem _ inside)⟩) (fun amd _ => ?_)
    (fun _ _ before _ => before.insert key) fun _ _ _ _ => dataItem_keyed rooted
  refine gatherArchiveDirs_keyed.weaken ?_ fun _ _ after => after.1
  rintro _ ⟨s,before,_,rfl⟩
  exact before.insert key

-- Kernel modules
theorem archiveKmodPath_keyed : Maintains Keyed (archiveKmodPath fs src dst) := by
  refine .ofExcept_bind (fun md _ => .bind archiveMd_maintains fun amd => .bind gatherArchiveDirs_keyed fun _ => ?_) fun _ _ _ h => h
  exact .assuming fun _ => .ofExcept_bind (fun ⟨_,bytes⟩ _ => archive_keyed) fun _ _ _ h => h

theorem insertNew_keyed {act : Gather Unit} (absolute : isAbsolute dst = true) (ran : Maintains Keyed act) :
    Maintains Keyed (insertPath dst >>= fun new => Eff.runIf (new = true) act) :=
  .bind (insertPath_keyed (absolute_rooted absolute)) fun _ => .runIf (fun _ => ran) fun _ _ h => h

theorem kmodAndDeps_keyed (rooted : isAbsolute gk.kmodDstRoot = true) : Maintains Keyed (gatherArchiveKmodAndDeps fs name gk) := by
  have below : ∀ rel, isAbsolute (join gk.kmodDstRoot rel) = true := fun rel => join_absolute rooted
  refine kmodAndDeps_triple (fun _ _ h => h) (fun m _ _ => archiveKmodPath_keyed.weaken ?_ fun _ _ h => h)
    (fun _ _ _ dep _ => insertNew_keyed (below dep) archiveKmodPath_keyed) fun _ _ _ _ _ => ?_
  · rintro _ ⟨s,before,_,rfl⟩
    exact before.insert (absolute_rooted (below m.relPath))
  · exact archiveSoftDep_triple fun m _ _ => insertNew_keyed (below m.relPath) (ignoreNotFound_admitted archiveKmodPath_keyed)

theorem gatherOneKmod_keyed (rooted : isAbsolute gk.kmodDstRoot = true) (ignoreMissing : Bool) :
    Maintains Keyed (gatherOneKmod fs gk ignoreMissing name) :=
  gatherOneKmod_triple (kmodAndDeps_keyed rooted) (fun _ _ _ left => left) (fun _ _ _ _ left => left) (fun _ _ _ left => left)
    ignoreMissing

theorem gatherKmodsInit_keyed :
    Triple Keyed (gatherKmodsInit host conf) (fun gk s => Keyed s ∧ isAbsolute gk.kmodDstRoot = true) fun _ => Keyed := by
  refine .ofExcept_bind (fun krel _ => ?_) fun _ _ _ h => h
  have rooted : isAbsolute (join (Utf8.encode "/usr/lib/modules/".toList) (Utf8.encode krel)) = true := join_absolute modulesDir_absolute
  dsimp only
  split
  · exact .fail fun _ h => h
  · refine .bind (.forEach fun file _ => ?_) fun _ => .pure fun s after => ⟨after,rooted⟩
    exact insertNew_keyed (join_absolute rooted) (ignoreNotFound_admitted archiveKmodPath_keyed)

theorem knownKmods_keyed :
    Triple Keyed (knownKmods host conf) (fun gk s => Keyed s ∧ isAbsolute gk.kmodDstRoot = true) fun _ => Keyed := by
  refine .read_bind fun found => ?_
  cases found with
  | some gk => exact .pure fun s before => ⟨before.1,before.1.kmods gk before.2⟩
  | none =>
    refine .bind (gatherKmodsInit_keyed.weaken (fun _ before => before.1) fun _ _ h => h) fun gk => ?_
    refine .bind (.update fun s after => ⟨⟨after.1.keys,fun other same => ?_⟩,after.2⟩) fun _ => .pure fun _ h => h
    cases same
    exact after.2

theorem gatherArchiveKmods_keyed (kmods : List Name) (ignoreMissing : Bool) :
    Maintains Keyed (gatherArchiveKmods host conf kmods ignoreMissing) :=
  .bind knownKmods_keyed fun _ => .assuming fun rooted => .forEach fun _ _ => gatherOneKmod_keyed rooted ignoreMissing

-- The directives
theorem manifestFile_keyed : Maintains Keyed (manifestFile fs conf name src) := by
  refine .ofExcept_bind (fun p _ => .bind pathSeen_keyed fun seen => ?_) fun _ _ _ h => h
  split
  · exact .pure fun _ h => h
  · cases src with
    | some location =>
      refine .ofExcept_bind (fun src _ => .ofExcept_bind (fun ⟨_,bytes⟩ _ => ?_) fun _ _ _ h => h) fun _ _ _ h => h
      exact .bind archiveMd_maintains fun amd => archiveNew_keyed
    | none => exact archiveNew_keyed

theorem manifestTree_keyed : Maintains Keyed (manifestTree fs conf fuel name src) := by
  refine .ofExcept_bind (fun dst _ => ?_) fun _ _ _ h => h
  split
  · exact .fail fun _ h => h
  · rename_i absolute
    refine .ofExcept_bind (fun src _ => ?_) fun _ _ _ h => h
    refine (Worklist.loop_triple KeyedItems (fun _ _ before => before.1) dataVisit_keyed fuel _).weaken (fun s before => ⟨before,?_⟩)
      fun _ _ after => after.1
    intro i only
    cases List.mem_singleton.mp only
    simpa using absolute

theorem manifestAutorun_keyed : Maintains Keyed (manifestAutorun fs conf name) := by
  have dir : isAbsolute AUTORUN_DIR = true := by decide
  have parent : Maintains Keyed autorunParent :=
    .bind archive_keyed fun _ => .bind (insertPath_keyed (absolute_rooted dir)) fun _ => .pure fun _ h => h
  refine .ofExcept_bind (fun src _ => .bind (.read fun _ h => h) fun idx => .ofExcept_bind (fun dst _ => ?_) fun _ _ _ h => h)
    fun _ _ _ h => h
  refine .bind (.runIf (fun _ => parent) fun _ _ h => h) fun _ => .ofExcept_bind (fun ⟨_,bytes⟩ _ => ?_) fun _ _ _ h => h
  exact .bind archiveMd_maintains fun amd => .bind archive_keyed fun _ => .update fun _ after => ⟨after.keys,after.kmods⟩

theorem manifestKmod_keyed (ignoreMissing : Bool) : Maintains Keyed (manifestKmod host conf ignoreMissing kmod) := by
  unfold manifestKmod
  split
  · exact .fail fun _ h => h
  · exact gatherArchiveKmods_keyed _ ignoreMissing

theorem directive_keyed (etype : Etype) : Maintains Keyed (directive host conf fuel etype args) := by
  cases etype with
  | dir =>
    refine .bind (.ofExcept_bind (fun p _ => .bind pathSeen_keyed fun seen => ?_) fun _ _ _ h => h) fun _ => .pure fun _ h => h
    split
    · exact .pure fun _ h => h
    · exact archiveNew_keyed
  | slink =>
    refine .bind (.ofExcept_bind (fun p _ => .bind pathSeen_keyed fun seen => ?_) fun _ _ _ h => h) fun _ => .pure fun _ h => h
    split
    · exact .pure fun _ h => h
    · exact .ofExcept_bind (fun tgt _ => archiveNew_keyed) fun _ _ _ h => h
  | includeManifest =>
    refine .bind (.ofExcept_bind (fun p _ => .ofExcept_bind (fun got _ => ?_) fun _ _ _ h => h) fun _ _ _ h => h) fun _ => .pure fun _ h => h
    exact .ofExcept_bind (fun ⟨_,_⟩ _ => .pure fun _ h => h) fun _ _ _ h => h
  | file => exact .bind manifestFile_keyed fun _ => .pure fun _ h => h
  | bin => exact .ofExcept_bind (fun n _ => .bind gatherArchiveElfs_keyed fun _ => .pure fun _ h => h) fun _ _ _ h => h
  | tryBin => exact .ofExcept_bind (fun n _ => .bind gatherArchiveElfs_keyed fun _ => .pure fun _ h => h) fun _ _ _ h => h
  | kmod => exact .bind (manifestKmod_keyed false) fun _ => .pure fun _ h => h
  | tryKmod => exact .bind (manifestKmod_keyed true) fun _ => .pure fun _ h => h
  | tree => exact .bind manifestTree_keyed fun _ => .pure fun _ h => h
  | filter =>
    refine .ofExcept_bind (fun p made => ?_) fun _ _ _ h => h
    exact .bind (insertPath_keyed (absolute_rooted (nameSubAbsPath_absolute made))) fun _ => .pure fun _ h => h
  | autorun =>
    refine .bind (.bind (.read fun _ h => h) fun _ => .bind (.forEach fun _ _ => manifestAutorun_keyed) fun _ => ?_) fun _ => .pure fun _ h => h
    exact .bind (.read fun _ h => h) fun _ => .runIf (fun _ => .fail fun _ h => h) fun _ _ h => h

theorem manifestParse_keyed : Maintains Keyed (manifestParse host conf fuel fests) := by
  have start : Maintains Keyed (Eff.update fun s => {s with autorunIdx:=0}) := .update fun _ before => ⟨before.keys,before.kmods⟩
  refine .bind start fun _ => ?_
  refine Worklist.loop_triple (fun _ => Keyed) (fun _ _ h => h) (fun fest rest => ?_) fuel fests.reverse
  exact festVisit_triple (fun _ h => h) (fun _ _ _ h => h) fun _ _ etype _ _ _ _ => directive_keyed etype

theorem populateDefaultSymlinks_keyed : Maintains Keyed populateDefaultSymlinks := by
  have unseen : ∀ p tgt, Maintains Keyed (symlinkUnseen p tgt) := fun p tgt =>
    .bind pathSeen_keyed fun _ => .runIf (fun _ => archive_keyed) fun _ _ h => h
  have sbin : Maintains Keyed sbinSymlink := by
    refine .bind pathSeen_keyed fun seen => ?_
    split
    · exact .bind pathSeen_keyed fun _ => .bind pathSeen_keyed fun _ => .runIf (fun _ => archive_keyed) fun _ _ h => h
    · exact archive_keyed
  have kmods : Maintains Keyed archiveKmodsSymlink := by
    refine .bind pathSeen_keyed fun seen => ?_
    split
    · exact archive_keyed
    · exact archive_keyed
  exact .bind (unseen _ _) fun _ => .bind (unseen _ _) fun _ => .bind sbin fun _ => kmods

theorem cutMain_keyed (file : Option (Metadata × List UInt8)) : Maintains Keyed (cutMain host file conf fuel fests) := by
  have source : Maintains Keyed (archiveRapidoConf file) := by
    unfold archiveRapidoConf
    split
    · exact archive_keyed
    · exact .bind archiveMd_maintains fun _ => archive_keyed
  have shell : Maintains Keyed (archiveRapidoRc host.toFileSystem) :=
    .ofExcept_bind (fun ⟨_,_⟩ _ => .bind archiveMd_maintains fun _ => archive_keyed) fun _ _ _ h => h
  refine .bind source fun _ => .bind manifestParse_keyed fun _ => .bind shell fun _ => .bind gatherArchiveElfs_keyed fun _ => ?_
  exact .bind (gatherArchiveKmods_keyed _ _) fun _ => .bind populateDefaultSymlinks_keyed fun _ => archive_keyed

theorem cutMain_apart (host : Host) (file : Option (Metadata × List UInt8)) (conf : Map) (fuel : Nat) (fests : List Fest)
    (unseen : s.pathsSeen = []) (unloaded : s.gk = none) :
    NamesApart fun p => components p ∈ ((cutMain host file conf fuel fests).run s).2.pathsSeen := by
  have start : Keyed s := by
    refine ⟨fun cs inside => ?_,fun gk loaded => ?_⟩
    · rw [unseen] at inside
      cases inside
    · rw [unloaded] at loaded
      cases loaded
  have after : Keyed ((cutMain host file conf fuel fests).run s).2 := maintained (cutMain_keyed file) start rfl
  exact rooted_apart.mono fun p inside => after.keys _ inside

-- Names are canonical, absolute paths have names of their own, and so have the
-- paths in paths_seen, however main ends.
theorem names_canonical : (∀ path name, pathTrimPrefixes path = .ok name → Canonical path name) ∧
    NamesApart (fun p => isAbsolute p = true) ∧
    ∀ host file conf fuel fests s, s.pathsSeen = [] → s.gk = none →
      NamesApart fun p => components p ∈ ((cutMain host file conf fuel fests).run s).2.pathsSeen :=
  ⟨fun _ _ => trim_canonical,rooted_apart.mono fun _ => absolute_rooted,
    fun host file conf fuel fests _ => cutMain_apart host file conf fuel fests⟩

theorem names_canonical_modules : Canonical (asPath "/.//usr//lib/.") (asPath "usr//lib") ∧
    asPath "lib" ≠ asPath "lib/modules" ∧
    components (asPath "/lib") ∈ ((cutMain coreHost none coreConf 9 [modulesFest]).run emptyState).2.pathsSeen ∧
    components (asPath "/lib/modules") ∈ ((cutMain coreHost none coreConf 9 [modulesFest]).run emptyState).2.pathsSeen := by
  have seen : components (asPath "/lib") ∈ ((cutMain coreHost none coreConf 9 [modulesFest]).run emptyState).2.pathsSeen ∧
      components (asPath "/lib/modules") ∈ ((cutMain coreHost none coreConf 9 [modulesFest]).run emptyState).2.pathsSeen := by
    decide +kernel
  obtain ⟨canonical,_,apart⟩ := names_canonical
  refine ⟨canonical _ _ (by decide +kernel),?_,seen⟩
  exact apart coreHost none coreConf 9 [modulesFest] emptyState rfl rfl _ _ _ _ seen.1 seen.2 (by decide +kernel)
    (by decide +kernel) (by decide +kernel)

end Rapido.Cut

import Rapido.ParentDirs
import Rapido.CutTraversal

-- gather_archive_data copies a source tree: which entries, and in which order.
namespace Rapido.Cut
open UnixPath Cpio Eff

-- The files in a directory. `text` is what a regular file contains or where a
-- symlink leads to, `below` is what a directory holds.
inductive Files where
  | nil
  | cons (name : Name) (md : Metadata) (text : List UInt8) (below rest : Files)

def Files.names : Files → List Name
  | .nil => []
  | .cons name _ _ _ rest => name :: rest.names

def Files.size : Files → Nat
  | .nil => 0
  | .cons _ _ _ below rest => below.size + rest.size + 1

-- Siblings have different names and stand in descending byte order.
def Files.Descending : Files → Prop
  | .nil => True
  | .cons name _ _ below rest => ValidName name ∧ (∀ other ∈ rest.names, bytesLe other name = true ∧ other ≠ name) ∧
    below.Descending ∧ rest.Descending

-- What the file system answers about a file, where it does answer.
structure Shows (fs : FileSystem) (src : Path) (md : Metadata) (text : List UInt8) (names : List Name) : Prop where
  stat : ∀ got, fs.symlinkMetadata src = .ok got → got = md
  listed : md.mode &&& S_IFMT = S_IFDIR → ∀ got, fs.readDir src = .ok got → got.Perm names
  childless : md.mode &&& S_IFMT ≠ S_IFDIR → names = []
  opened : md.mode &&& S_IFMT = S_IFREG → ∀ got, fs.fileOpen src = .ok got → got.2 = text
  linked : md.mode &&& S_IFMT = S_IFLNK → ∀ got, fs.readLink src = .ok got → got = text

def Holds (fs : FileSystem) (dir : Path) : Files → Prop
  | .nil => True
  | .cons name md text below rest => Shows fs (join dir name) md text below.names ∧ Holds fs (join dir name) below ∧ Holds fs dir rest

-- A file and where it goes.
structure Copied where
  dst : Path
  md : Metadata
  text : List UInt8
deriving DecidableEq, Repr

-- The pre-order walk. What goes to a path in the set is left out with all that
-- is below it.
def walk (seen : List (List Component)) (dst : Path) : Files → List Copied
  | .nil => []
  | .cons name md text below rest =>
    (if components (join dst name) ∈ seen then []
      else ⟨join dst name,md,text⟩ :: walk seen (join dst name) below) ++ walk seen dst rest

-- A name leads to paths of its own.
theorem join_apart (valid : ValidName a) (also : ValidName b) (first : components (join dst a) <+: cs)
    (second : components (join dst b) <+: cs) : a = b := by
  rw [components_join valid] at first
  rw [components_join also] at second
  have same := List.prefix_of_prefix_length_le first second (by simp)
  have equal := same.eq_of_length (by simp)
  simpa using equal

theorem join_strict (valid : ValidName n) : ¬components (join dst n) <+: components dst := by
  rw [components_join valid]
  intro inside
  have short := inside.length_le
  simp at short

theorem Files.Descending.valid {files : Files} (descending : files.Descending) : ∀ n ∈ files.names, ValidName n := by
  induction files with
  | nil => exact nofun
  | cons name md text below rest _ ih =>
    intro n inside
    rcases List.mem_cons.mp inside with rfl | later
    · exact descending.1
    · exact ih descending.2.2.2 n later

theorem below_name (valid : ValidName n) (inside : components (join (join dst name) n) <+: cs) :
    components (join dst name) <+: cs := by
  rw [components_join valid] at inside
  exact (List.prefix_append _ _).trans inside

theorem walk_under {files : Files} (descending : files.Descending) (walked : c ∈ walk seen dst files) :
    ∃ n ∈ files.names, components (join dst n) <+: components c.dst := by
  induction files generalizing dst with
  | nil => cases walked
  | cons name md text below rest ihBelow ihRest =>
    obtain ⟨valid,_,deeper,others⟩ := descending
    rcases List.mem_append.mp walked with here | later
    · refine ⟨name,List.mem_cons_self,?_⟩
      split at here
      · cases here
      · rcases List.mem_cons.mp here with rfl | down
        · exact List.prefix_rfl
        · obtain ⟨n,member,inside⟩ := ihBelow deeper down
          exact below_name (deeper.valid n member) inside
    · obtain ⟨n,member,inside⟩ := ihRest others later
      exact ⟨n,List.mem_cons_of_mem _ member,inside⟩

-- The walk only asks about paths below its directory.
theorem walk_congr {files : Files} (descending : files.Descending)
    (same : ∀ n ∈ files.names, ∀ cs, components (join dst n) <+: cs → (cs ∈ seen ↔ cs ∈ more)) :
    walk seen dst files = walk more dst files := by
  induction files generalizing dst with
  | nil => rfl
  | cons name md text below rest ihBelow ihRest =>
    obtain ⟨valid,_,deeper,others⟩ := descending
    have here := same name List.mem_cons_self
    have down : walk seen (join dst name) below = walk more (join dst name) below :=
      ihBelow deeper fun n member cs inside => here cs (below_name (deeper.valid n member) inside)
    have right : walk seen dst rest = walk more dst rest :=
      ihRest others fun n member => same n (List.mem_cons_of_mem _ member)
    unfold walk
    rw [down,right]
    simp only [here _ List.prefix_rfl]

-- Paths that are not below the tree's names may be added to the set.
theorem walk_added {files : Files} (descending : files.Descending)
    (apart : ∀ n ∈ files.names, ∀ cs, components (join dst n) <+: cs → cs ∉ added) :
    walk (added ++ seen) dst files = walk seen dst files := by
  apply walk_congr descending
  intro n member cs inside
  rw [List.mem_append]
  exact ⟨fun either => either.resolve_left (apart n member cs inside),.inr⟩

theorem walk_nodup {files : Files} (descending : files.Descending) (seen : List (List Component)) (dst : Path) :
    ((walk seen dst files).map fun c => components c.dst).Nodup := by
  induction files generalizing dst with
  | nil => exact List.nodup_nil
  | cons name md text below rest ihBelow ihRest =>
    obtain ⟨valid,above,deeper,others⟩ := descending
    unfold walk
    rw [List.map_append]
    refine List.Nodup.append ?_ (ihRest others dst) ?_
    · split
      · exact List.nodup_nil
      · refine List.nodup_cons.mpr ⟨fun again => ?_,ihBelow deeper _⟩
        obtain ⟨c,walked,equal⟩ := List.mem_map.mp again
        obtain ⟨n,member,inside⟩ := walk_under deeper walked
        exact join_strict (deeper.valid n member) (equal ▸ inside)
    · intro cs front back
      obtain ⟨c,walked,rfl⟩ := List.mem_map.mp front
      obtain ⟨d,later,equal⟩ := List.mem_map.mp back
      obtain ⟨n,member,inside⟩ := walk_under others later
      have own : components (join dst name) <+: components c.dst := by
        split at walked
        · cases walked
        · rcases List.mem_cons.mp walked with rfl | down
          · exact List.prefix_rfl
          · obtain ⟨m,member,inside⟩ := walk_under deeper down
            exact below_name (deeper.valid m member) inside
      exact (above n member).2 (join_apart (others.valid n member) valid (equal ▸ inside) own)

-- The call a file is archived with.
def Copied.call (c : Copied) (amd : ArchiveMd) : Call :=
  if amd.mode &&& S_IFMT = S_IFREG ∧ amd.len > 0 then .file c.dst amd c.text
  else if amd.mode &&& S_IFMT = S_IFLNK then .symlink c.dst amd c.text
  else .path c.dst amd

def Archives (state : ArchiveState) (c : Copied) (call : Call) : Prop :=
  ∃ amd, ArchiveMd.fromMetadata state c.md = .ok amd ∧ call = c.call amd

-- From one state to the other some files are copied, and nothing else happens.
structure Copies (copied : List Copied) (s t : State) : Prop where
  archived : ∃ calls, List.Forall₂ (Archives s.archive.state) copied calls ∧ t.archived = s.archived ++ calls
  seen : t.pathsSeen = (copied.map fun c => components c.dst).reverse ++ s.pathsSeen
  fixed : t.archive.state.props = s.archive.state.props

theorem fromMetadata_props {state other : ArchiveState} (same : state.props = other.props) (md : Metadata) :
    ArchiveMd.fromMetadata state md = ArchiveMd.fromMetadata other md := by
  unfold ArchiveMd.fromMetadata
  rw [same]

theorem Copies.nil (s : State) : Copies [] s s where
  archived := ⟨[],.nil,by simp⟩
  seen := rfl
  fixed := rfl

theorem Copies.append (first : Copies front s t) (second : Copies back t u) : Copies (front ++ back) s u where
  archived := by
    obtain ⟨calls,made,logged⟩ := first.archived
    obtain ⟨others,also,after⟩ := second.archived
    refine ⟨calls ++ others,List.rel_append made (also.imp fun c call made => ?_),by rw [after,logged,List.append_assoc]⟩
    obtain ⟨amd,found,same⟩ := made
    exact ⟨amd,fromMetadata_props first.fixed c.md ▸ found,same⟩
  seen := by simp [second.seen,first.seen]
  fixed := second.fixed.trans first.fixed

-- The items that a directory pushes, the last one first.
def pushed (src dst : Path) (names : List Name) : List GatherItem :=
  names.map fun n => ⟨join src n,join dst n,GATHER_ITEM_IGNORE_PARENT⟩

theorem sorted_reverse (shuffled : got.Perm names) (descending : names.Pairwise fun a b => bytesLe b a = true) :
    (sortNames got).reverse = names := by
  have ascending : names.reverse.Pairwise fun a b => bytesLe a b = true := List.pairwise_reverse.mpr descending
  rw [sortNames_perm (shuffled.trans names.reverse_perm.symm),(sortNames_iff _).mpr ascending,List.reverse_reverse]

theorem Files.Descending.pairwise {files : Files} (descending : files.Descending) :
    files.names.Pairwise fun a b => bytesLe b a = true := by
  induction files with
  | nil => exact .nil
  | cons name md text below rest _ ih =>
    exact .cons (fun other inside => (descending.2.1 other inside).1) (ih descending.2.2.2)

theorem dataItem_ran {item : GatherItem} (shows : Shows fs item.src md text names) (mode : amd.mode = md.mode)
    (descending : names.Pairwise fun a b => bytesLe b a = true) (ran : (dataItem fs item amd rest).run s = (.ok items,t)) :
    (∃ a, t = {s with archive:=a,archived:=s.archived ++ [Copied.call ⟨item.dst,md,text⟩ amd]}) ∧
      items = pushed item.src item.dst names ++ rest := by
  unfold dataItem at ran
  unfold Copied.call
  split at ran
  · rename_i dir
    obtain ⟨_,middle,wrote,ran⟩ := bind_ok.mp ran
    obtain ⟨got,after,answer,ran⟩ := bind_ok.mp ran
    obtain ⟨listed,rfl⟩ := ofExcept_run_ok answer
    cases ran
    obtain ⟨a,_,rfl⟩ := archive_ran wrote
    have sorted := sorted_reverse (shows.listed (mode ▸ dir) got listed) descending
    refine ⟨⟨a,?_⟩,?_⟩
    · rw [dir,if_neg (fun file => absurd file.1 (by decide)),if_neg (by decide)]
    · unfold pushed
      rw [← List.map_reverse,sorted]
  · rename_i other
    have none : names = [] := shows.childless (mode ▸ other)
    rw [none]
    split at ran
    · rename_i file
      obtain ⟨got,middle,answer,ran⟩ := bind_ok.mp ran
      obtain ⟨opened,rfl⟩ := ofExcept_run_ok answer
      obtain ⟨_,middle,wrote,ran⟩ := bind_ok.mp ran
      cases ran
      obtain ⟨a,_,rfl⟩ := archive_ran wrote
      rw [if_pos file,shows.opened (mode ▸ file.1) got opened]
      exact ⟨⟨a,rfl⟩,rfl⟩
    · rename_i unread
      rw [if_neg unread]
      split at ran
      · rename_i link
        obtain ⟨got,middle,answer,ran⟩ := bind_ok.mp ran
        obtain ⟨linked,rfl⟩ := ofExcept_run_ok answer
        obtain ⟨_,middle,wrote,ran⟩ := bind_ok.mp ran
        cases ran
        obtain ⟨a,_,rfl⟩ := archive_ran wrote
        rw [if_pos link,shows.linked (mode ▸ link) got linked]
        exact ⟨⟨a,rfl⟩,rfl⟩
      · rename_i plain
        obtain ⟨_,middle,wrote,ran⟩ := bind_ok.mp ran
        cases ran
        obtain ⟨a,_,rfl⟩ := archive_ran wrote
        rw [if_neg plain]
        exact ⟨⟨a,rfl⟩,rfl⟩

theorem archiveMd_ran (ran : (archiveMd md).run s = (.ok amd,t)) : ArchiveMd.fromMetadata s.archive.state md = .ok amd ∧ s = t := by
  unfold archiveMd at ran
  rw [read_bind_run] at ran
  exact ofExcept_run_ok ran

theorem dataVisit_ran {item : GatherItem} (shows : Shows fs item.src md text names) (ran : (dataVisit fs item rest).run s = (.ok items,t)) :
    (components item.dst ∈ s.pathsSeen ∧ items = rest ∧ t = s) ∨
      components item.dst ∉ s.pathsSeen ∧ ∃ amd u, ArchiveMd.fromMetadata s.archive.state md = .ok amd ∧
        (Eff.runIf (item.flags &&& GATHER_ITEM_IGNORE_PARENT = 0) (gatherArchiveDirs (parent item.dst) amd)).run
          {s with pathsSeen:=components item.dst :: s.pathsSeen} = (.ok (),u) ∧
        (dataItem fs item amd rest).run u = (.ok items,t) := by
  unfold dataVisit at ran
  split at ran
  · cases ran
  · rename_i got stat
    rw [shows.stat got stat] at ran
    obtain ⟨amd,middle,answer,ran⟩ := bind_ok.mp ran
    obtain ⟨made,rfl⟩ := archiveMd_ran answer
    by_cases seen : components item.dst ∈ s.pathsSeen
    · rw [bind_run_ok (insertPath_old seen)] at ran
      cases ran
      exact .inl ⟨seen,rfl,rfl⟩
    · rw [bind_run_ok (insertPath_new seen)] at ran
      obtain ⟨_,u,parents,ran⟩ := bind_ok.mp ran
      exact .inr ⟨seen,amd,u,made,parents,ran⟩

-- One turn for an item whose directory has just been archived.
theorem child_ran (shows : Shows fs src md text names) (descending : names.Pairwise fun a b => bytesLe b a = true)
    (ran : (dataVisit fs ⟨src,dst,GATHER_ITEM_IGNORE_PARENT⟩ rest).run s = (.ok items,t)) :
    (components dst ∈ s.pathsSeen ∧ items = rest ∧ t = s) ∨
      components dst ∉ s.pathsSeen ∧ Copies [⟨dst,md,text⟩] s t ∧ items = pushed src dst names ++ rest := by
  have fixed : Fixed s.archive.state.props t.archive := (dataVisit_keeps (fixed_stable _).steady).ok s items t rfl ran
  rcases dataVisit_ran shows ran with pruned | ⟨new,amd,u,made,parents,ran⟩
  · exact .inl pruned
  · unfold Eff.runIf at parents
    rw [if_neg (show ¬GATHER_ITEM_IGNORE_PARENT &&& GATHER_ITEM_IGNORE_PARENT = 0 by decide)] at parents
    cases parents
    obtain ⟨⟨a,rfl⟩,next⟩ := dataItem_ran shows (fromMetadata_mode made) descending ran
    exact .inr ⟨new,⟨⟨_,.cons ⟨amd,made,rfl⟩ .nil,rfl⟩,rfl,fixed⟩,next⟩

-- Everything that stands for the files of a directory is worked off before the
-- items that were below it on the stack.
theorem walk_ran {files : Files} (holds : Holds fs src files) (descending : files.Descending)
    (runs : Worklist.Runs (dataVisit fs) (pushed src dst files.names ++ rest) s [] t) :
    ∃ u, Copies (walk s.pathsSeen dst files) s u ∧ Worklist.Runs (dataVisit fs) rest u [] t := by
  induction files generalizing src dst rest s with
  | nil => exact ⟨s,.nil s,runs⟩
  | cons name md text below others ihBelow ihRest =>
    obtain ⟨shows,down,right⟩ := holds
    obtain ⟨valid,above,deeper,sorted⟩ := descending
    cases runs with
    | @step _ _ _ _ _ middle _ visited more =>
      rcases child_ran shows deeper.pairwise visited with ⟨seen,rfl,rfl⟩ | ⟨new,copied,rfl⟩
      · obtain ⟨u,copies,onwards⟩ := ihRest right sorted more
        refine ⟨u,?_,onwards⟩
        unfold walk
        rwa [if_pos seen]
      · obtain ⟨v,inner,more⟩ := ihBelow down deeper more
        obtain ⟨u,copies,onwards⟩ := ihRest right sorted more
        refine ⟨u,?_,onwards⟩
        -- what this file adds to the set is not asked for again
        have first : walk middle.pathsSeen (join dst name) below = walk s.pathsSeen (join dst name) below := by
          rw [copied.seen]
          refine walk_added deeper fun n member cs inside own => ?_
          cases List.mem_singleton.mp own
          exact join_strict (deeper.valid n member) inside
        have second : walk v.pathsSeen dst others = walk s.pathsSeen dst others := by
          rw [inner.seen,copied.seen,← List.append_assoc]
          refine walk_added sorted fun n member cs inside own => ?_
          have apart : ¬components (join dst name) <+: cs := fun own =>
            (above n member).2 (join_apart (sorted.valid n member) valid inside own)
          rcases List.mem_append.mp own with deep | here
          · obtain ⟨c,walked,rfl⟩ := List.mem_map.mp (List.mem_reverse.mp deep)
            obtain ⟨m,inner,deep⟩ := walk_under deeper walked
            exact apart (below_name (deeper.valid m inner) deep)
          · cases List.mem_singleton.mp here
            exact apart List.prefix_rfl
        rw [first] at inner
        rw [second] at copies
        unfold walk
        rw [if_neg new]
        exact (copied.append inner).append copies

-- The directories above a destination that are archived with it: none if its
-- parent has been seen.
def ancestors (seen : List (List Component)) (dst : Path) : List (List Name) :=
  match parent dst with
  | none => []
  | some q => if components q ∈ seen then [] else missingDirs seen q

theorem normalPrefixes_length (rooted : isAbsolute q = true) (inside : names ∈ normalPrefixes (components q)) :
    (rootComponents names).length ≤ (components q).length := by
  apply walkDirs_shorter rooted
  rw [walkDirs_prefixes]
  exact inside

theorem newDirs_congr (same : ∀ names ∈ dirs, (rootComponents names ∈ seen ↔ rootComponents names ∈ more)) :
    newDirs seen dirs = newDirs more dirs := by
  unfold newDirs
  refine congrArg List.eraseDups (List.filter_congr fun names inside => ?_)
  simp only [same names inside]

theorem parents_ran {s u : State}
    (ran : (gatherArchiveDirs (parent dst) amd).run {s with pathsSeen:=components dst :: s.pathsSeen} = (.ok (),u)) :
    Entered (parentDirsAmd amd) (ancestors s.pathsSeen dst) {s with pathsSeen:=components dst :: s.pathsSeen} u ∧
      ∀ names ∈ ancestors s.pathsSeen dst, (rootComponents names).length < (components dst).length := by
  have nothing : ∀ s : State, Entered (parentDirsAmd amd) [] s s := fun s => ⟨s.archive,rfl,by simp⟩
  unfold ancestors
  cases found : parent dst with
  | none =>
    rw [found] at ran
    cases ran
    exact ⟨nothing _,nofun⟩
  | some q =>
    rw [found] at ran
    have rooted : isAbsolute q = true := by
      by_contra relative
      unfold gatherArchiveDirs at ran
      dsimp only at ran
      rw [if_pos (by simpa using relative)] at ran
      cases ran
    obtain ⟨_,shorter⟩ := parent_shorter found rooted
    have other : components q ≠ components dst := fun same => by
      rw [same] at shorter
      exact Nat.lt_irrefl _ shorter
    dsimp only
    by_cases seen : components q ∈ s.pathsSeen
    · rw [gatherArchiveDirs_seen rooted (List.mem_cons_of_mem _ seen)] at ran
      cases ran
      rw [if_pos seen]
      exact ⟨nothing _,nofun⟩
    · have fresh : components q ∉ components dst :: s.pathsSeen :=
        fun inside => (List.mem_cons.mp inside).elim other seen
      rw [gatherArchiveDirs_unseen rooted fresh] at ran
      have entered := (dirsLoop_ran rooted ran).2
      -- dst is longer than what is on the way to it
      have same : missingDirs (components dst :: s.pathsSeen) q = missingDirs s.pathsSeen q := by
        refine newDirs_congr fun names inside => ?_
        have less := normalPrefixes_length rooted inside
        have apart : rootComponents names ≠ components dst := fun same => by
          rw [same] at less
          omega
        simp [apart]
      rw [if_neg seen]
      refine ⟨same ▸ entered,fun names inside => ?_⟩
      have less := normalPrefixes_length rooted (mem_newDirs.mp inside).1
      omega

-- What is left to do, in items and in files.
inductive Pending (fs : FileSystem) : List GatherItem → Nat → Prop where
  | nil : Pending fs [] 0
  | cons {item : GatherItem} {md : Metadata} {text : List UInt8} {below : Files} {rest : List GatherItem} {n : Nat}
      (shows : Shows fs item.src md text below.names) (holds : Holds fs item.src below) (descending : below.Descending)
      (more : Pending fs rest n) : Pending fs (item :: rest) (below.size + 1 + n)

theorem Pending.push {files : Files} (holds : Holds fs src files) (descending : files.Descending) (more : Pending fs rest n) :
    Pending fs (pushed src dst files.names ++ rest) (files.size + n) := by
  induction files with
  | nil =>
    rw [Files.size,Nat.zero_add]
    exact more
  | cons name md text below others _ ih =>
    obtain ⟨shows,down,right⟩ := holds
    obtain ⟨_,_,deeper,sorted⟩ := descending
    have count : (Files.cons name md text below others).size + n = below.size + 1 + (others.size + n) := by
      rw [Files.size]
      omega
    rw [count]
    exact .cons shows down deeper (ih right sorted)

theorem Pending.less (pending : Pending fs (item :: rest) n) (ran : (dataVisit fs item rest).run s = (.ok items,t)) :
    ∃ m < n, Pending fs items m := by
  cases pending with
  | @cons _ md text below _ m shows holds descending more =>
    rcases dataVisit_ran shows ran with ⟨_,rfl,_⟩ | ⟨_,amd,u,made,_,ran⟩
    · exact ⟨m,by omega,more⟩
    · obtain ⟨_,rfl⟩ := dataItem_ran shows (fromMetadata_mode made) descending.pairwise ran
      exact ⟨below.size + m,by omega,.push holds descending more⟩

theorem Pending.busy (pending : Pending fs (item :: rest) n) : 0 < n := by
  cases pending with
  | cons shows holds descending more => omega

-- The same files, whose directories may be listed in another order.
structure Relisted (fs other : FileSystem) : Prop where
  stat : other.symlinkMetadata = fs.symlinkMetadata
  opened : other.fileOpen = fs.fileOpen
  linked : other.readLink = fs.readLink
  listed : ∀ p, (∃ e, fs.readDir p = .error e ∧ other.readDir p = .error e) ∨
    ∃ names others, fs.readDir p = .ok names ∧ other.readDir p = .ok others ∧ others.Perm names

theorem dataItem_relisted (relisted : Relisted fs other) (item : GatherItem) (amd : ArchiveMd) (rest : List GatherItem) :
    dataItem other item amd rest = dataItem fs item amd rest := by
  unfold dataItem
  rw [relisted.opened,relisted.linked]
  rcases relisted.listed item.src with ⟨e,first,second⟩ | ⟨names,others,first,second,shuffled⟩
  · rw [first,second]
  · rw [first,second,ofExcept_ok,ofExcept_ok]
    have same := sortNames_perm shuffled
    refine ite_congr rfl (fun _ => congrArg (archive (.path item.dst amd) >>= ·) (funext fun _ => ?_)) fun _ => rfl
    change pure _ = pure _
    rw [same]

theorem gatherArchiveData_relisted (relisted : Relisted fs other) (fuel : Nat) (items : List GatherItem) :
    gatherArchiveData other fuel items = gatherArchiveData fs fuel items := by
  have visits : dataVisit other = dataVisit fs := by
    funext item rest
    unfold dataVisit
    simp only [relisted.stat,dataItem_relisted relisted]
  unfold gatherArchiveData
  rw [visits]

theorem tree_ran {below : Files} {s t : State} (shows : Shows fs src md text below.names) (holds : Holds fs src below)
    (descending : below.Descending) (unseen : components dst ∉ s.pathsSeen)
    (ran : (gatherArchiveData fs fuel [⟨src,dst,0⟩]).run s = (.ok (),t)) :
    ∃ amd calls, ArchiveMd.fromMetadata s.archive.state md = .ok amd ∧
      List.Forall₂ (Archives s.archive.state) (⟨dst,md,text⟩ :: walk s.pathsSeen dst below) calls ∧
      t.archived = s.archived ++ ((ancestors s.pathsSeen dst).map (dirCall (parentDirsAmd amd)) ++ calls) := by
  cases Worklist.loop_runs ran with
  | @step _ _ items _ _ middle _ visited more =>
    have fixed : Fixed s.archive.state.props middle.archive := (dataVisit_keeps (fixed_stable _).steady).ok s items middle rfl visited
    rcases dataVisit_ran shows visited with ⟨seen,_⟩ | ⟨_,amd,u,made,parents,visited⟩
    · exact absurd seen unseen
    · unfold Eff.runIf at parents
      rw [if_pos (show (0 : UInt32) &&& GATHER_ITEM_IGNORE_PARENT = 0 by decide)] at parents
      obtain ⟨⟨a,_,rfl⟩,short⟩ := parents_ran parents
      obtain ⟨⟨b,rfl⟩,rfl⟩ := dataItem_ran shows (fromMetadata_mode made) descending.pairwise visited
      obtain ⟨v,copies,rest⟩ := walk_ran holds descending more
      cases rest
      obtain ⟨calls,each,logged⟩ := copies.archived
      -- what has been added so far is no longer than dst
      have same : walk (((ancestors s.pathsSeen dst).map rootComponents).reverse ++ components dst :: s.pathsSeen) dst below =
          walk s.pathsSeen dst below := by
        rw [List.append_cons]
        refine walk_added descending fun n member cs inside own => ?_
        have longer : (components dst).length < cs.length := by
          rw [components_join (descending.valid n member)] at inside
          have := inside.length_le
          simp at this
          omega
        rcases List.mem_append.mp own with above | here
        · obtain ⟨names,listed,rfl⟩ := List.mem_map.mp (List.mem_reverse.mp above)
          have less : (rootComponents names).length < (components dst).length := short names listed
          omega
        · cases List.mem_singleton.mp here
          exact Nat.lt_irrefl _ longer
      rw [same] at each
      refine ⟨amd,_ :: calls,made,.cons ⟨amd,made,rfl⟩ (each.imp fun c call archives => ?_),?_⟩
      · obtain ⟨amd,found,equal⟩ := archives
        exact ⟨amd,fromMetadata_props fixed c.md ▸ found,equal⟩
      · rw [logged]
        simp

theorem tree_copied {below : Files} {s : State} (shows : Shows fs src md text below.names) (holds : Holds fs src below)
    (descending : below.Descending) (unseen : components dst ∉ s.pathsSeen) :
    (∀ fuel ≥ below.size + 1, (gatherArchiveData fs fuel [⟨src,dst,0⟩]).run s =
      (gatherArchiveData fs (below.size + 1) [⟨src,dst,0⟩]).run s) ∧
    (∀ other fuel, Relisted fs other → gatherArchiveData other fuel [⟨src,dst,0⟩] = gatherArchiveData fs fuel [⟨src,dst,0⟩]) ∧
    ((⟨dst,md,text⟩ :: walk s.pathsSeen dst below).map fun c => components c.dst).Nodup ∧
    ∀ fuel t, (gatherArchiveData fs fuel [⟨src,dst,0⟩]).run s = (.ok (),t) →
      ∃ amd calls, ArchiveMd.fromMetadata s.archive.state md = .ok amd ∧
        List.Forall₂ (Archives s.archive.state) (⟨dst,md,text⟩ :: walk s.pathsSeen dst below) calls ∧
        t.archived = s.archived ++ ((ancestors s.pathsSeen dst).map (dirCall (parentDirsAmd amd)) ++ calls) := by
  refine ⟨fun fuel enough => ?_,fun other fuel relisted => gatherArchiveData_relisted relisted fuel _,?_,?_⟩
  · have pending : Pending fs [⟨src,dst,0⟩] (below.size + 1 + 0) := .cons shows holds descending .nil
    exact Worklist.loop_enough (fun _ _ _ => Pending.busy) (fun _ _ _ _ _ _ => Pending.less) pending enough (Nat.le_refl _) s
  · refine List.nodup_cons.mpr ⟨fun again => ?_,walk_nodup descending _ _⟩
    obtain ⟨c,walked,equal⟩ := List.mem_map.mp again
    obtain ⟨n,member,inside⟩ := walk_under descending walked
    exact join_strict (descending.valid n member) (equal ▸ inside)
  · exact fun fuel t ran => tree_ran shows holds descending unseen ran

-- The directory "/l" with its empty file, as "/a/b".
def smallFiles : Files := .cons (asPath "f") (plainMd (S_IFREG ||| 0o644) 1) [] .nil .nil
def smallItem : GatherItem := ⟨asPath "/l",asPath "/a/b",0⟩

theorem shows_l : Shows treeHost.toFileSystem (asPath "/l") (plainMd (S_IFDIR ||| 0o755) 2) [] smallFiles.names where
  stat := by
    have answer : treeHost.symlinkMetadata (asPath "/l") = .ok (plainMd (S_IFDIR ||| 0o755) 2) := by decide +kernel
    exact fun got stat => Except.ok.inj (stat.symm.trans answer)
  listed := by
    have answer : treeHost.readDir (asPath "/l") = .ok [asPath "f"] := by decide +kernel
    intro _ got listed
    rw [Except.ok.inj (listed.symm.trans answer)]
    exact .refl _
  childless := fun other => absurd (by decide) other
  opened := fun file => absurd file (by decide)
  linked := fun link => absurd link (by decide)

theorem holds_l : Holds treeHost.toFileSystem (asPath "/l") smallFiles := by
  refine ⟨⟨?_,fun dir => absurd dir (by decide),fun _ => rfl,?_,fun link => absurd link (by decide)⟩,trivial,trivial⟩
  · have answer : treeHost.symlinkMetadata (join (asPath "/l") (asPath "f")) = .ok (plainMd (S_IFREG ||| 0o644) 1) := by decide +kernel
    exact fun got stat => Except.ok.inj (stat.symm.trans answer)
  · exact fun _ got opened => nomatch opened

theorem tree_copied_small : ∃ t amd calls, (gatherArchiveData treeHost.toFileSystem 2 [smallItem]).run emptyState = (.ok (),t) ∧
    List.Forall₂ (Archives emptyState.archive.state)
      [⟨asPath "/a/b",plainMd (S_IFDIR ||| 0o755) 2,[]⟩,⟨asPath "/a/b/f",plainMd (S_IFREG ||| 0o644) 1,[]⟩] calls ∧
    t.archived = dirCall (parentDirsAmd amd) [[97]] :: calls := by
  have unseen : components (asPath "/a/b") ∉ emptyState.pathsSeen := by decide +kernel
  have valid : ValidName (asPath "f") := by
    unfold ValidName
    decide +kernel
  have sorted : smallFiles.Descending := ⟨valid,nofun,trivial,trivial⟩
  have succeeds : ((gatherArchiveData treeHost.toFileSystem 2 [smallItem]).run emptyState).1 = .ok () := by decide +kernel
  obtain ⟨amd,calls,_,each,logged⟩ := (tree_copied shows_l holds_l sorted unseen).2.2.2 2 _ (run_ok succeeds)
  have walked : walk emptyState.pathsSeen (asPath "/a/b") smallFiles = [⟨asPath "/a/b/f",plainMd (S_IFREG ||| 0o644) 1,[]⟩] := by
    decide +kernel
  have above : ancestors emptyState.pathsSeen (asPath "/a/b") = [[[97]]] := by decide +kernel
  rw [walked] at each
  rw [above] at logged
  exact ⟨_,amd,calls,run_ok succeeds,each,logged⟩

-- "/a" has not been seen, but "/a/b" has.
def seenParent : State := {emptyState with pathsSeen:=[components (asPath "/a/b")]}
def fileBelow : GatherItem := ⟨asPath "/l/f",asPath "/a/b/c",0⟩

theorem unseen_ancestor_skipped : [[97]] ∈ normalPrefixes (components fileBelow.dst) ∧
    rootComponents [[97]] ∉ seenParent.pathsSeen ∧ components fileBelow.dst ∉ seenParent.pathsSeen ∧
    ((gatherArchiveData treeHost.toFileSystem 1 [fileBelow]).run seenParent).1 = .ok () ∧
    ((gatherArchiveData treeHost.toFileSystem 1 [fileBelow]).run seenParent).2.archived.map Call.target = [asPath "/a/b/c"] := by
  decide +kernel

end Rapido.Cut

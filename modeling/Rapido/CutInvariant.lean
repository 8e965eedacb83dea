import Rapido.ElfDeps
import Rapido.PathLaws

-- paths_seen against the archive, over whole manifest runs.
namespace Rapido.Cut
open UnixPath Cpio Text KvConf Eff

def archivedPaths (calls : List Call) : List (List Component) := calls.map fun c => components c.target

-- The parent of a path is the root or has been archived.
def Rooted (before : List Call) (p : Path) : Prop :=
  match parent p with
  | none => components p = [.rootDir]
  | some q => lexNormal (components q) = [] ∨ ∃ d ∈ before, lexNormal (components d.target) = lexNormal (components q)

-- `pending` paths are in paths_seen and still to be archived, `owed` paths are
-- archived and still to be inserted. Both are empty between two directives.
structure Tracked (pending owed : List (List Component)) (archived : List Call) (seen : List (List Component)) : Prop where
  same : ∀ cs, (cs ∈ seen ∨ cs ∈ owed) ↔ (cs ∈ archivedPaths archived ∨ cs ∈ pending)
  once : (archivedPaths archived).Nodup
  rooted : ∀ before c after, archived = before ++ c :: after → Rooted before c.target

abbrev Settled (s : State) : Prop := Tracked [] [] s.archived s.pathsSeen

variable {pending owed seen : List (List Component)} {calls : List Call} {c : Call} {dst p : Path} {amd : ArchiveMd}

@[simp] theorem mem_archivedPaths : cs ∈ archivedPaths calls ↔ ∃ d ∈ calls, components d.target = cs := List.mem_map

@[simp] theorem archivedPaths_concat (calls : List Call) (c : Call) :
    archivedPaths (calls ++ [c]) = archivedPaths calls ++ [components c.target] := by
  simp [archivedPaths]

theorem Rooted.mono (old : Rooted calls p) (more : ∀ d ∈ calls, d ∈ later) : Rooted later p := by
  unfold Rooted at old ⊢
  split
  · rename_i bare
    rw [bare] at old
    exact old
  · rename_i q inside
    rw [inside] at old
    exact old.imp_right fun ⟨d,present,equal⟩ => ⟨d,more d present,equal⟩

theorem rooted_concat (old : ∀ before d after, calls = before ++ d :: after → Rooted before d.target)
    (new : Rooted calls c.target) (split : calls ++ [c] = before ++ d :: after) : Rooted before d.target := by
  rcases List.eq_nil_or_concat after with rfl | ⟨front,last,rfl⟩
  · obtain ⟨rfl,same⟩ := List.append_inj' split rfl
    cases same
    exact new
  · rw [List.concat_eq_append,← List.cons_append,← List.append_assoc] at split
    obtain ⟨whole,_⟩ := List.append_inj' split rfl
    exact old before d front whole

theorem once_concat (once : (archivedPaths calls).Nodup) (fresh : components c.target ∉ archivedPaths calls) :
    (archivedPaths (calls ++ [c])).Nodup := by
  rw [archivedPaths_concat,List.nodup_append]
  refine ⟨once,by simp,?_⟩
  rintro a old b new rfl
  exact fresh (List.mem_singleton.mp new ▸ old)

-- The entry was inserted first: gather_archive_data and gather_archive_dirs.
theorem Tracked.archive_pending (tracked : Tracked (components c.target :: pending) owed calls seen)
    (fresh : components c.target ∉ archivedPaths calls) (rooted : Rooted calls c.target) :
    Tracked pending owed (calls ++ [c]) seen where
  same := by
    intro cs
    simpa only [archivedPaths_concat,List.mem_append,List.mem_cons,List.not_mem_nil,or_false,or_assoc] using tracked.same cs
  once := once_concat tracked.once fresh
  rooted := fun _ _ _ => rooted_concat tracked.rooted rooted

-- The entry is inserted next: gather_archive_elfs and the other directives.
theorem Tracked.archive_owed (tracked : Tracked pending owed calls seen)
    (fresh : components c.target ∉ archivedPaths calls) (rooted : Rooted calls c.target) :
    Tracked pending (components c.target :: owed) (calls ++ [c]) seen where
  same := by
    intro cs
    simp only [archivedPaths_concat,List.mem_append,List.mem_cons,List.not_mem_nil,or_false,or_assoc]
    rw [or_left_comm,tracked.same cs,or_left_comm]
  once := once_concat tracked.once fresh
  rooted := fun _ _ _ => rooted_concat tracked.rooted rooted

theorem Tracked.insert_pending (tracked : Tracked pending owed calls seen) (cs : List Component) :
    Tracked (cs :: pending) owed calls (cs :: seen) where
  same := by
    intro x
    simp only [List.mem_cons,or_assoc]
    rw [tracked.same x,or_left_comm]
  once := tracked.once
  rooted := tracked.rooted

theorem Tracked.insert_owed (tracked : Tracked pending (cs :: owed) calls seen) : Tracked pending owed calls (cs :: seen) where
  same := by
    intro x
    rw [← tracked.same x]
    simp only [List.mem_cons,or_assoc]
    exact or_left_comm
  once := tracked.once
  rooted := tracked.rooted

theorem Tracked.owed_seen (tracked : Tracked pending (cs :: owed) calls seen) (old : cs ∈ seen) :
    Tracked pending owed calls seen where
  same := by
    intro x
    rw [← tracked.same x,List.mem_cons]
    constructor
    · exact Or.imp_right .inr
    · rintro (already | rfl | due)
      · exact .inl already
      · exact .inl old
      · exact .inr due
  once := tracked.once
  rooted := tracked.rooted

-- The components of `here` in gather_archive_dirs.
def rootComponents (here : List Name) : List Component := .rootDir :: here.map .normal

theorem components_rootPath (valid : ∀ n ∈ here, ValidName n) : components (rootPath here) = rootComponents here := by
  unfold rootPath
  rw [components_absolute (isAbsolute_cons _),body_pushed here valid]
  rfl

theorem rootComponents_length (here : List Name) : (rootComponents here).length = here.length + 1 := by
  simp [rootComponents]

-- The directories that the walk of some components comes through.
def walkDirs : List Name → List Component → List (List Name)
  | _,[] => []
  | here,.rootDir :: rest => walkDirs here rest
  | here,.curDir :: rest => walkDirs here rest
  | here,.parentDir :: rest => walkDirs here.dropLast rest
  | here,.normal c :: rest => (here ++ [c]) :: walkDirs (here ++ [c]) rest

def dirsAbove (dst : Path) : List (List Component) :=
  match parent dst with
  | none => []
  | some q => (walkDirs [] (components q)).map rootComponents

-- What is on the way consists of names of the path, in their order.
theorem walkDirs_sublist (here : List Name) (cs : List Component) (walked : names ∈ walkDirs here cs) :
    names.Sublist (here ++ cs.filterMap Component.name) := by
  induction cs generalizing here with
  | nil => cases walked
  | cons c rest ih =>
    cases c with
    | rootDir => exact ih here walked
    | curDir => exact ih here walked
    | parentDir => exact (ih here.dropLast walked).trans ((List.dropLast_sublist here).append (.refl _))
    | normal n =>
      have push : here ++ (Component.normal n :: rest).filterMap Component.name = here ++ [n] ++ rest.filterMap Component.name := by
        simp [Component.name]
      rw [push]
      rcases List.mem_cons.mp walked with rfl | later
      · exact List.sublist_append_left _ _
      · exact ih (here ++ [n]) later

theorem walkDirs_shorter (rooted : isAbsolute q = true) (walked : names ∈ walkDirs [] (components q)) :
    (rootComponents names).length ≤ (components q).length := by
  rw [components_absolute rooted] at walked ⊢
  have inside := walkDirs_sublist [] (body q) walked
  rw [List.nil_append] at inside
  have short := inside.length_le.trans (List.length_filterMap_le _ _)
  rw [rootComponents_length,List.length_cons]
  omega

-- Each directory on the way that is new is entered on both sides.
theorem dirsLoop_enters {kept : State → Prop} (here : List Name) (rest : List Component)
    (each : ∀ s names amd a, kept s → names ∈ walkDirs here rest → components (rootPath names) = rootComponents names →
      rootComponents names ∉ s.pathsSeen →
      kept {s with archive:=a,archived:=s.archived ++ [.path (rootPath names) amd],pathsSeen:=rootComponents names :: s.pathsSeen})
    (valid : ∀ m ∈ here, ValidName m) (names : ∀ m, .normal m ∈ rest → ValidName m) :
    Ensures kept (dirsLoop amd here rest) fun _ => kept := by
  induction rest generalizing here with
  | nil => exact .pure fun _ h => h
  | cons c rest ih =>
    have below : ∀ m, .normal m ∈ rest → ValidName m := fun m inside => names m (List.mem_cons_of_mem _ inside)
    cases c with
    | rootDir => exact ih here each valid below
    | curDir => exact ih here each valid below
    | parentDir =>
      unfold dirsLoop
      split
      · exact .fail fun _ _ => trivial
      · exact ih here.dropLast each (fun m inside => valid m ((List.dropLast_prefix here).subset inside)) below
    | normal n =>
      have pushed : ∀ m ∈ here ++ [n], ValidName m := valid_pushed valid (names n List.mem_cons_self)
      have next := ih (here ++ [n]) (fun s names amd a before inside => each s names amd a before (List.mem_cons_of_mem _ inside))
        pushed below
      have shape := components_rootPath pushed
      refine insertPath_bind ?_ ?_
      · refine .bind (.runIf (fun _ => archive_triple ?_ fun _ _ _ _ _ => trivial) fun no => absurd rfl no) fun _ => next
        rintro _ a ⟨s,before,new,rfl⟩ _
        rw [shape] at new ⊢
        exact each s (here ++ [n]) amd a before List.mem_cons_self shape new
      · exact .bind (.runIf (fun yes => absurd yes Bool.noConfusion) fun _ s before => before.1) fun _ => next

theorem gatherArchiveDirs_enters {kept : State → Prop}
    (each : ∀ s dir amd a, kept s → components dir ∈ dirsAbove dst → components dir ∉ s.pathsSeen →
      kept {s with archive:=a,archived:=s.archived ++ [.path dir amd],pathsSeen:=components dir :: s.pathsSeen}) :
    Ensures kept (gatherArchiveDirs (parent dst) amd) fun _ => kept := by
  unfold gatherArchiveDirs
  split
  · exact .pure fun _ h => h
  · rename_i q found
    split
    · exact .fail fun _ _ => trivial
    · rename_i relative
      have rooted : isAbsolute q = true := by simpa using relative
      refine pathSeen_bind (.pure fun _ before => before.1) ?_
      refine (dirsLoop_enters [] (components q) ?_ (by simp) fun m => components_valid rooted).weaken (fun _ before => before.1) fun _ _ h => h
      intro s names amd a before walked shape new
      have above : components (rootPath names) ∈ dirsAbove dst := by
        unfold dirsAbove
        rw [found,shape]
        exact List.mem_map_of_mem walked
      have kept := each s (rootPath names) amd a before above (shape ▸ new)
      rwa [shape] at kept

-- Every directory on the way down to `here` has been archived, so that popping
-- a component leads to an archived directory again.
def Stacked (here : List Name) (calls : List Call) : Prop :=
  ∀ above, above <+: here → above ≠ [] → rootComponents above ∈ archivedPaths calls

theorem Stacked.pop (stacked : Stacked here calls) : Stacked here.dropLast calls :=
  fun above inside => stacked above (inside.trans (List.dropLast_prefix here))

theorem Stacked.push (stacked : Stacked here calls) (present : rootComponents (here ++ [n]) ∈ archivedPaths calls) :
    Stacked (here ++ [n]) calls := by
  intro above inside filled
  rcases List.prefix_concat_iff.mp inside with rfl | shorter
  · exact present
  · exact stacked above shorter filled

theorem Stacked.mono (stacked : Stacked here calls) (more : ∀ cs ∈ archivedPaths calls, cs ∈ archivedPaths later) :
    Stacked here later := fun above inside filled => more _ (stacked above inside filled)

theorem Stacked.normal (stacked : Stacked here calls) :
    here = [] ∨ ∃ d ∈ calls, lexNormal (components d.target) = here := by
  by_cases top : here = []
  · exact .inl top
  · obtain ⟨d,present,equal⟩ := mem_archivedPaths.mp (stacked here List.prefix_rfl top)
    exact .inr ⟨d,present,by rw [equal]; exact lexNormal_pushed here⟩

theorem rooted_pushed (valid : ∀ m ∈ here ++ [n], ValidName m) (stacked : Stacked here calls) :
    Rooted calls (rootPath (here ++ [n])) := by
  have shape : body (rootPath (here ++ [n])) = (here ++ [n]).map .normal := body_pushed _ valid
  rcases parent_absolute (isAbsolute_cons (unsegments (here ++ [n]))) with ⟨_,empty⟩ | ⟨q,last,found,rooted,appended⟩
  · change body (rootPath (here ++ [n])) = [] at empty
    rw [shape] at empty
    simp at empty
  · change body (rootPath (here ++ [n])) = body q ++ [last] at appended
    change parent (rootPath (here ++ [n])) = some q at found
    rw [shape,List.map_append] at appended
    obtain ⟨above,_⟩ := List.append_inj' appended rfl
    have normal : lexNormal (components q) = here := by
      rw [components_absolute rooted,← above]
      exact lexNormal_pushed here
    simp only [Rooted,found,normal]
    exact stacked.normal

-- What holds before and after gather_archive_dirs works for `dst`: dst itself
-- may be pending, and it is not archived yet.
def Awaited (pending : List (List Component)) (dst : Path) (s : State) : Prop :=
  Tracked pending [] s.archived s.pathsSeen ∧ components dst ∉ archivedPaths s.archived

-- A directory on the way is shorter than dst, so it is not the pending one.
theorem pushed_triple (valid : ∀ m ∈ here ++ [n], ValidName m)
    (short : (rootComponents (here ++ [n])).length < (components dst).length) :
    Ensures (fun t => ∃ s, (Awaited pending dst s ∧ Stacked here s.archived) ∧
        components (rootPath (here ++ [n])) ∉ s.pathsSeen ∧
        t = {s with pathsSeen:=components (rootPath (here ++ [n])) :: s.pathsSeen})
      (archive (.path (rootPath (here ++ [n])) amd))
      fun _ s => Awaited pending dst s ∧ Stacked (here ++ [n]) s.archived := by
  have shape := components_rootPath valid
  refine archive_triple ?_ fun _ _ _ _ _ => trivial
  rintro _ a ⟨s,⟨⟨tracked,fresh⟩,stacked⟩,unseen,rfl⟩ ran
  have unarchived : components (rootPath (here ++ [n])) ∉ archivedPaths s.archived :=
    fun old => unseen (((tracked.same _).mpr (.inl old)).resolve_right List.not_mem_nil)
  have apart : components dst ≠ rootComponents (here ++ [n]) := fun equal => by
    rw [equal] at short
    exact Nat.lt_irrefl _ short
  refine ⟨⟨?_,?_⟩,?_⟩
  · exact (tracked.insert_pending _).archive_pending unarchived (rooted_pushed valid stacked)
  · change components dst ∉ archivedPaths (s.archived ++ [.path (rootPath (here ++ [n])) amd])
    rw [archivedPaths_concat]
    intro either
    rcases List.mem_append.mp either with old | new
    · exact fresh old
    · exact apart ((List.mem_singleton.mp new).trans shape)
  · change Stacked (here ++ [n]) (s.archived ++ [.path (rootPath (here ++ [n])) amd])
    refine (stacked.mono fun cs old => ?_).push ?_
    · rw [archivedPaths_concat]
      exact List.mem_append_left _ old
    · rw [archivedPaths_concat]
      exact List.mem_append_right _ (List.mem_singleton.mpr shape.symm)

theorem dirsLoop_awaited (only : ∀ cs ∈ pending, cs = components dst) (here : List Name) (rest : List Component)
    (valid : ∀ m ∈ here, ValidName m) (names : ∀ m, .normal m ∈ rest → ValidName m)
    (short : here.length + rest.length + 1 < (components dst).length) :
    Ensures (fun s => Awaited pending dst s ∧ Stacked here s.archived) (dirsLoop amd here rest)
      fun _ s => Awaited pending dst s ∧ Stacked (rest.foldl lexPush here) s.archived := by
  induction rest generalizing here with
  | nil => exact .pure fun _ h => h
  | cons c rest ih =>
    have below : ∀ m, .normal m ∈ rest → ValidName m := fun m inside => names m (List.mem_cons_of_mem _ inside)
    simp only [List.length_cons] at short
    cases c with
    | rootDir => exact ih here valid below (by omega)
    | curDir => exact ih here valid below (by omega)
    | parentDir =>
      unfold dirsLoop
      split
      · exact .fail fun _ _ => trivial
      · have popped : here.dropLast.length ≤ here.length := by simp
        refine (ih here.dropLast (fun m inside => valid m ((List.dropLast_prefix here).subset inside)) below (by omega)).weaken ?_
          fun _ _ h => h
        exact fun s before => ⟨before.1,before.2.pop⟩
    | normal n =>
      have pushed : ∀ m ∈ here ++ [n], ValidName m := valid_pushed valid (names n List.mem_cons_self)
      have shorter : (rootComponents (here ++ [n])).length < (components dst).length := by
        rw [rootComponents_length,List.length_append,List.length_singleton]
        omega
      have next := ih (here ++ [n]) pushed below (by rw [List.length_append,List.length_singleton]; omega)
      refine insertPath_bind ?_ ?_
      · exact .bind (.runIf (fun _ => pushed_triple pushed shorter) fun no => absurd rfl no) fun _ => next
      · refine .bind (.runIf (fun yes => absurd yes Bool.noConfusion) fun _ s before => ?_) fun _ => next
        obtain ⟨⟨⟨tracked,fresh⟩,stacked⟩,old⟩ := before
        refine ⟨⟨tracked,fresh⟩,stacked.push ?_⟩
        rw [components_rootPath pushed] at old
        refine ((tracked.same _).mp (.inl old)).resolve_right fun awaiting => ?_
        rw [only _ awaiting] at shorter
        exact Nat.lt_irrefl _ shorter

theorem gatherArchiveDirs_awaited (only : ∀ cs ∈ pending, cs = components dst) (absolute : isAbsolute dst = true) :
    Ensures (Awaited pending dst) (gatherArchiveDirs (parent dst) amd)
      fun _ s => Awaited pending dst s ∧ Rooted s.archived dst := by
  rcases parent_absolute absolute with ⟨none,empty⟩ | ⟨q,last,found,rooted,appended⟩
  · rw [none]
    refine .pure fun s before => ⟨before,?_⟩
    simp only [Rooted,none]
    rw [components_absolute absolute,empty]
  · have longer : (components dst).length = (components q).length + 1 := by
      rw [components_absolute absolute,components_absolute rooted,appended]
      simp
    rw [found]
    unfold gatherArchiveDirs
    dsimp only
    rw [if_neg (by simp [rooted])]
    refine pathSeen_bind (.pure ?_) ?_
    · rintro s ⟨⟨tracked,fresh⟩,old⟩
      refine ⟨⟨tracked,fresh⟩,?_⟩
      simp only [Rooted,found]
      rcases (tracked.same _).mp (.inl old) with done | awaiting
      · obtain ⟨d,present,equal⟩ := mem_archivedPaths.mp done
        exact .inr ⟨d,present,by rw [equal]⟩
      · rw [only _ awaiting] at longer
        omega
    · rw [components_absolute rooted] at longer ⊢
      simp only [List.length_cons] at longer
      refine (dirsLoop_awaited only [] (body q) (by simp) (fun m => body_valid) ?_).weaken ?_ ?_
      · simp only [List.length_nil]
        omega
      · exact fun s before => ⟨before.1,fun above inside filled => absurd (List.prefix_nil.mp inside) filled⟩
      · rintro _ s ⟨before,stacked⟩
        refine ⟨before,?_⟩
        simp only [Rooted,found]
        rw [components_absolute rooted]
        exact stacked.normal

-- dst is absent and its parents are there: what archiving it needs.
def Due (pending : List (List Component)) (dst : Path) (s : State) : Prop := Awaited pending dst s ∧ Rooted s.archived dst

theorem archive_due (aim : c.target = dst) :
    Ensures (Due [components dst] dst) (archive c) fun _ s => Settled s ∧ c ∈ s.archived := by
  subst aim
  refine archive_triple (fun s a due _ => ⟨due.1.1.archive_pending due.1.2 due.2,?_⟩) fun _ _ _ _ _ => trivial
  exact List.mem_append_right _ (List.mem_singleton.mpr rfl)

def Owed (dst : Path) (s : State) : Prop := Tracked [] [components dst] s.archived s.pathsSeen

theorem archive_owed (aim : c.target = dst) : Ensures (Due [] dst) (archive c) fun _ => Owed dst := by
  subst aim
  exact archive_triple (fun s a due _ => due.1.1.archive_owed due.1.2 due.2) fun _ _ _ _ _ => trivial

theorem insert_owed : Ensures (Owed dst) (insertPath dst) fun _ => Settled :=
  insertPath_triple (fun _ (owed : Tracked _ _ _ _) _ => owed.insert_owed) fun _ (owed : Tracked _ _ _ _) => owed.owed_seen

-- Parents, entry, set: as in most directives.
theorem unseen_awaited (settled : Settled s) (unseen : components dst ∉ s.pathsSeen) : Awaited [] dst s :=
  ⟨settled,fun old => unseen (((settled.same _).mpr (.inl old)).resolve_right List.not_mem_nil)⟩

theorem archiveNew_settled (absolute : isAbsolute p = true) (aim : c.target = p) :
    Ensures (fun s => Settled s ∧ components p ∉ s.pathsSeen) (archiveNew p amd c) fun _ => Settled := by
  refine .bind ((gatherArchiveDirs_awaited (by simp) absolute).weaken (fun s before => unseen_awaited before.1 before.2)
    fun _ _ h => h) fun _ => ?_
  exact .bind (archive_owed aim) fun _ => .bind insert_owed fun _ => .pure fun _ h => h

-- gather_archive_data
theorem rooted_child (absolute : isAbsolute dst = true) (valid : ValidName n) (present : c ∈ calls) (aim : c.target = dst) :
    Rooted calls (join dst n) := by
  have shape : body (join dst n) = body dst ++ [.normal n] := by rw [body_join (valid_relative valid),body_name valid]
  rcases parent_absolute (show isAbsolute (join dst n) = true from join_absolute absolute) with ⟨_,empty⟩ | ⟨q,last,found,rooted,appended⟩
  · rw [shape] at empty
    simp at empty
  · rw [shape] at appended
    obtain ⟨above,_⟩ := List.append_inj' appended rfl
    simp only [Rooted,found]
    refine .inr ⟨c,present,?_⟩
    rw [aim,components_absolute rooted,components_absolute absolute,above]

-- New items are under a directory that has just been archived.
def Below (rest items : List GatherItem) (calls : List Call) : Prop :=
  ∀ i ∈ items, i ∈ rest ∨ (isAbsolute i.dst = true ∧ Rooted calls i.dst)

theorem below_rest (rest : List GatherItem) (calls : List Call) : Below rest rest calls := fun _ => .inl

theorem dataItem_settled {item : GatherItem} (absolute : isAbsolute item.dst = true) :
    Ensures (Due [components item.dst] item.dst) (dataItem fs item amd rest)
      fun items s => Settled s ∧ Below rest items s.archived := by
  have archived : ∀ c : Call, c.target = item.dst → Ensures (Due [components item.dst] item.dst) (archive c)
      fun _ s => Settled s ∧ ∃ c ∈ s.archived, c.target = item.dst :=
    fun c aim => (archive_due aim).weaken (fun _ h => h) fun _ _ after => ⟨after.1,c,after.2,aim⟩
  refine dataItem_triple archived (fun _ _ _ _ => trivial) (fun _ _ _ _ => trivial) ?_ ?_
  · rintro names s listed ⟨settled,c,present,aim⟩
    refine ⟨settled,fun i inside => ?_⟩
    rcases List.mem_append.mp inside with child | old
    · obtain ⟨n,sorted,rfl⟩ := List.mem_map.mp (List.mem_reverse.mp child)
      have valid : ValidName n := fs.readDir_names listed n ((List.mem_insertionSort _).mp sorted)
      exact .inr ⟨join_absolute absolute,rooted_child absolute valid present aim⟩
    · exact .inl old
  · exact fun s _ after => ⟨after.1,below_rest _ _⟩

def Parented (item : GatherItem) (calls : List Call) : Prop :=
  isAbsolute item.dst = true ∧ (item.flags &&& GATHER_ITEM_IGNORE_PARENT ≠ 0 → Rooted calls item.dst)

theorem dataVisit_settled {item : GatherItem} :
    Ensures (fun s => Settled s ∧ Parented item s.archived) (dataVisit fs item rest)
      fun items s => Settled s ∧ Below rest items s.archived := by
  refine .given fun start ⟨settled,absolute,parented⟩ => ?_
  refine dataVisit_triple (fun _ _ _ _ => trivial) (fun _ _ _ _ _ => trivial) ?_ (fun amd _ => ?_) ?_
    fun _ _ _ _ => dataItem_settled absolute
  · rintro s rfl _
    exact ⟨settled,below_rest _ _⟩
  · refine (gatherArchiveDirs_awaited (by simp) absolute).weaken ?_ fun _ _ h => h
    rintro _ ⟨s,rfl,unseen,rfl⟩
    exact ⟨settled.insert_pending _,(unseen_awaited settled unseen).2⟩
  · rintro ignored s rfl unseen
    exact ⟨⟨settled.insert_pending _,(unseen_awaited settled unseen).2⟩,parented ignored⟩

def DataInv (items : List GatherItem) (s : State) : Prop := Settled s ∧ ∀ item ∈ items, Parented item s.archived

theorem dataVisit_inv (item : GatherItem) (rest : List GatherItem) :
    Ensures (DataInv (item :: rest)) (dataVisit fs item rest) DataInv where
  ok := by
    rintro s items t ⟨settled,parented⟩ ran
    have grown : Grows s t := (dataVisit_keeps (grows_stable s).steady).ok s items t (.refl s) ran
    obtain ⟨after,below⟩ := dataVisit_settled.ok s items t ⟨settled,parented item List.mem_cons_self⟩ ran
    refine ⟨after,fun i inside => ?_⟩
    rcases below i inside with old | ⟨absolute,rooted⟩
    · obtain ⟨absolute,ignored⟩ := parented i (List.mem_cons_of_mem _ old)
      exact ⟨absolute,fun flag => (ignored flag).mono fun _ old => grown.archived.subset old⟩
    · exact ⟨absolute,fun _ => rooted⟩
  error := fun _ _ _ _ _ => trivial

theorem gatherArchiveData_settled (absolute : isAbsolute dst = true) :
    Ensures Settled (gatherArchiveData fs fuel [⟨src,dst,0⟩]) fun _ => Settled := by
  refine (Worklist.loop_triple DataInv (fun _ _ _ => trivial) dataVisit_inv fuel [⟨src,dst,0⟩]).weaken ?_ fun _ _ h => h.1
  intro s settled
  refine ⟨settled,fun item only => ?_⟩
  cases List.mem_singleton.mp only
  have unflagged : (0 : UInt32) &&& GATHER_ITEM_IGNORE_PARENT = 0 := by decide
  exact ⟨absolute,fun flag => absurd unflagged flag⟩

-- gather_archive_elfs
def EntAbsolute : GatherEnt → Prop
  | .path p => isAbsolute p = true
  | .libRunPath _ paths => ∀ dir ∈ paths, isAbsolute dir = true
  | .manifest _ => False
  | _ => True

theorem firstStat_absolute (rooted : ∀ dir ∈ dirs, isAbsolute dir = true) (found : firstStat fs n dirs = some got) :
    isAbsolute got.path = true := by
  induction dirs with
  | nil => cases found
  | cons dir rest ih =>
    unfold firstStat at found
    split at found
    · cases found
      exact join_absolute (rooted dir List.mem_cons_self)
    · exact ih (fun other inside => rooted other (List.mem_cons_of_mem _ inside)) found

theorem statByName_absolute (rooted : ∀ dir ∈ dirs, isAbsolute dir = true)
    (found : statByName fs dirs missing n = .ok got) : isAbsolute got.path = true := by
  unfold statByName at found
  split at found
  · split at found
    · split at found
      · rename_i made
        cases found
        exact absolute_absolute fs.cwd_absolute made
      · cases found
    · cases found
  · split at found
    · rename_i first
      cases found
      exact firstStat_absolute rooted first
    · cases found

theorem binPaths_absolute : ∀ dir ∈ BIN_PATHS, isAbsolute dir = true := by decide
theorem libPaths_absolute : ∀ dir ∈ LIB_PATHS, isAbsolute dir = true := by decide

theorem pathStat_absolute {ent : GatherEnt} (based : EntAbsolute ent) (found : pathStat fs ent = .ok got) :
    isAbsolute got.path = true := by
  cases ent with
  | name n => exact statByName_absolute binPaths_absolute found
  | nameStatic n => exact statByName_absolute binPaths_absolute found
  | nameDst n d => exact statByName_absolute binPaths_absolute found
  | nameTry n => exact statByName_absolute binPaths_absolute found
  | lib n => exact statByName_absolute libPaths_absolute found
  | manifest n => exact based.elim
  | path p =>
    unfold pathStat at found
    dsimp only at found
    split at found
    · cases found
      exact based
    · cases found
  | libRunPath n paths =>
    unfold pathStat at found
    dsimp only at found
    split at found
    · exact statByName_absolute libPaths_absolute found
    · split at found
      · rename_i first
        cases found
        exact firstStat_absolute based first
      · exact statByName_absolute libPaths_absolute found

def RunpathsAbsolute (host : Host) : Prop :=
  ∀ bytes file, host.elfOpen bytes = some file → ∀ dir ∈ runpathsOf file, isAbsolute dir = true

theorem depEnt_absolute (rooted : ∀ dir ∈ runpaths, isAbsolute dir = true) : EntAbsolute (depEnt runpaths n) := by
  unfold depEnt
  split
  · exact rooted
  · trivial

theorem elfDeps_absolute (rooted : RunpathsAbsolute host) (bytes : List UInt8) :
    Ensures (fun _ => True) (elfDeps host bytes) fun deps _ => ∀ e ∈ deps, EntAbsolute e := by
  refine ⟨fun seen deps after _ ran => ?_,fun _ _ _ _ _ => trivial⟩
  obtain ⟨file,opened,_,rfl,_⟩ := elfDeps_ok ran
  intro e inside
  obtain ⟨n,_,rfl⟩ := List.mem_map.mp inside
  exact depEnt_absolute (rooted bytes file opened)

theorem depsFor_due (rooted : RunpathsAbsolute host) :
    Ensures (Due [] dst) (depsFor host ent amd bytes) fun deps s => Due [] dst s ∧ ∀ e ∈ deps, EntAbsolute e := by
  unfold depsFor
  split
  · refine elfDepsOrNone_triple fun s deps result names due parsed => ⟨due,?_⟩
    obtain ⟨parsed,rfl⟩ := parsed
    cases result with
    | ok found => exact (elfDeps_absolute rooted bytes).ok _ _ _ trivial parsed
    | error e => exact fun e none => absurd none List.not_mem_nil
  · exact .pure fun _ due => ⟨due,fun e none => absurd none List.not_mem_nil⟩

-- New entries are resolved to absolute paths.
def Located (rest items : List GatherEnt) : Prop := ∀ e ∈ items, e ∈ rest ∨ EntAbsolute e

theorem elfSymlink_settled : Ensures (Due [] dst) (elfSymlink fs ent dst amd rest)
    fun items s => Settled s ∧ Located rest items := by
  unfold elfSymlink
  split
  · exact .pure fun s due => ⟨due.1.1,fun _ => .inl⟩
  · refine .bind (archive_owed rfl) fun _ => ?_
    split
    · refine .bind insert_owed fun _ => .pure fun s settled => ⟨settled,fun e inside => ?_⟩
      rcases List.mem_cons.mp inside with rfl | old
      · split
        · exact .inr trivial
        · exact .inr trivial
      · exact .inl old
    · exact .fail fun _ _ => trivial

theorem elfFile_settled (rooted : RunpathsAbsolute host) : Ensures (Due [] dst) (elfFile host ent src dst amd rest)
    fun items s => Settled s ∧ Located rest items := by
  refine Ensures.ofExcept_bind fun ⟨_,bytes⟩ _ => .bind (depsFor_due rooted) fun deps => .given fun start ⟨due,located⟩ => ?_
  refine .bind ((archive_owed rfl).weaken (fun s same => same ▸ due) fun _ _ h => h) fun _ => .bind insert_owed fun _ => ?_
  refine .pure fun s settled => ⟨settled,fun e inside => ?_⟩
  rcases List.mem_append.mp inside with new | old
  · exact .inr (located e (List.mem_reverse.mp new))
  · exact .inl old

theorem elfDir_settled (absolute : isAbsolute src = true) : Ensures (Due [] dst) (elfDir fs src dst amd rest)
    fun items s => Settled s ∧ Located rest items := by
  refine .bind (archive_owed rfl) fun _ => Ensures.ofExcept_bind fun names _ => .bind insert_owed fun _ => ?_
  refine .pure fun s settled => ⟨settled,fun e inside => ?_⟩
  rcases List.mem_append.mp inside with child | old
  · obtain ⟨n,_,rfl⟩ := List.mem_map.mp (List.mem_reverse.mp child)
    exact .inr (join_absolute absolute)
  · exact .inl old

theorem elfOther_settled : Ensures (Due [] dst) (elfOther dst amd rest) fun items s => Settled s ∧ Located rest items :=
  .bind (archive_owed rfl) fun _ => .bind insert_owed fun _ => .pure fun _ settled => ⟨settled,fun _ => .inl⟩

theorem elfGot_settled (rooted : RunpathsAbsolute host) (found : isAbsolute src = true) (absolute : isAbsolute dst = true) :
    Ensures Settled (elfGot host ent src dst md rest) fun items s => Settled s ∧ Located rest items := by
  refine elfGot_triple (fun s settled _ => ⟨settled,fun _ => .inl⟩) (fun _ _ _ _ => trivial) (fun amd => ?_) (fun _ _ => trivial)
    (fun _ _ => elfSymlink_settled) (fun _ _ => elfFile_settled rooted) (fun _ _ => elfDir_settled found) fun _ _ => elfOther_settled
  exact (gatherArchiveDirs_awaited (by simp) absolute).weaken (fun s before => unseen_awaited before.1 before.2) fun _ _ h => h

theorem elfVisit_settled (rooted : RunpathsAbsolute host) (based : EntAbsolute ent) :
    Ensures Settled (elfVisit host ent rest) fun items s => Settled s ∧ Located rest items := by
  refine elfVisit_triple (fun _ _ s _ _ settled => ⟨settled,fun _ => .inl⟩) (fun _ _ _ _ => trivial) (fun _ _ => trivial) ?_
  intro got dst stat lands
  have placed := pathStat_absolute based stat
  cases lands with
  | given absolute => exact elfGot_settled rooted placed absolute
  | found plain => exact elfGot_settled rooted placed placed

def ElfInv (ents : List GatherEnt) (s : State) : Prop := Settled s ∧ ∀ e ∈ ents, EntAbsolute e

theorem elfVisit_inv (rooted : RunpathsAbsolute host) (ent : GatherEnt) (rest : List GatherEnt) :
    Ensures (ElfInv (ent :: rest)) (elfVisit host ent rest) ElfInv := by
  refine .given fun start ⟨settled,based⟩ => ?_
  refine (elfVisit_settled rooted (based ent List.mem_cons_self)).weaken (fun s same => same ▸ settled) ?_
  rintro items s ⟨after,located⟩
  refine ⟨after,fun e inside => ?_⟩
  rcases located e inside with old | new
  · exact based e (List.mem_cons_of_mem _ old)
  · exact new

theorem gatherArchiveElfs_settled (rooted : RunpathsAbsolute host) (based : ∀ e ∈ elfs, EntAbsolute e) :
    Ensures Settled (gatherArchiveElfs host fuel elfs) fun _ => Settled := by
  refine (Worklist.loop_triple ElfInv (fun _ _ _ => trivial) (elfVisit_inv rooted) fuel elfs.reverse).weaken ?_ fun _ _ h => h.1
  exact fun s settled => ⟨settled,fun e inside => based e (List.mem_reverse.mp inside)⟩

-- The directives
theorem nameSubAbsPath_absolute (made : manifestNameSubAbsPath fs conf name = .ok p) : isAbsolute p = true := by
  unfold manifestNameSubAbsPath at made
  cases substituted : manifestNameSub conf name with
  | error e =>
    rw [substituted] at made
    cases made
  | ok q =>
    rw [substituted] at made
    change (match absolute fs.cwd q with
      | none => Except.error (IoError.ofKind .invalidData)
      | some p => .ok p) = .ok p at made
    split at made
    · cases made
    · rename_i found
      cases made
      exact absolute_absolute fs.cwd_absolute found

theorem manifestDir_settled : Ensures Settled (manifestDir fs conf name) fun _ => Settled := by
  refine Ensures.ofExcept_bind fun p made => pathSeen_bind (.pure fun s before => before.1) ?_
  exact archiveNew_settled (nameSubAbsPath_absolute made) rfl

theorem manifestSlink_settled : Ensures Settled (manifestSlink fs conf name slinkTgt) fun _ => Settled := by
  refine Ensures.ofExcept_bind fun p made => pathSeen_bind (.pure fun s before => before.1) ?_
  exact Ensures.ofExcept_bind fun tgt _ => archiveNew_settled (nameSubAbsPath_absolute made) rfl

theorem manifestFile_settled : Ensures Settled (manifestFile fs conf name src) fun _ => Settled := by
  refine Ensures.ofExcept_bind fun p made => pathSeen_bind (.pure fun s before => before.1) ?_
  have absolute := nameSubAbsPath_absolute made
  cases src with
  | some location =>
    refine Ensures.ofExcept_bind fun src _ => Ensures.ofExcept_bind fun ⟨md,bytes⟩ _ => ?_
    refine .bind archiveMd_same fun amd => ?_
    exact archiveNew_settled absolute rfl
  | none => exact archiveNew_settled absolute rfl

theorem manifestTree_settled : Ensures Settled (manifestTree fs conf fuel name src) fun _ => Settled := by
  refine Ensures.ofExcept_bind fun dst made => ?_
  split
  · exact .fail fun _ _ => trivial
  · exact Ensures.ofExcept_bind fun src _ => gatherArchiveData_settled (nameSubAbsPath_absolute made)

-- dir, slink, file, tree, bin, try-bin and include
def Etype.gathersFiles : Etype → Bool
  | .dir => true
  | .slink => true
  | .includeManifest => true
  | .file => true
  | .bin => true
  | .tryBin => true
  | .tree => true
  | _ => false

theorem directive_settled (rooted : RunpathsAbsolute host) (gathers : etype.gathersFiles = true) :
    Ensures Settled (directive host conf fuel etype args) fun _ => Settled := by
  cases etype with
  | dir => exact .bind manifestDir_settled fun _ => .pure fun _ h => h
  | slink => exact .bind manifestSlink_settled fun _ => .pure fun _ h => h
  | includeManifest =>
    refine .bind ?_ fun _ => .pure fun _ h => h
    exact Ensures.ofExcept_bind fun _ _ => Ensures.ofExcept_bind fun _ _ => Ensures.ofExcept_bind fun ⟨_,_⟩ _ => .pure fun _ h => h
  | file => exact .bind manifestFile_settled fun _ => .pure fun _ h => h
  | bin =>
    refine Ensures.ofExcept_bind fun n _ => .bind (gatherArchiveElfs_settled rooted ?_) fun _ => .pure fun _ h => h
    exact fun e only => List.mem_singleton.mp only ▸ trivial
  | tryBin =>
    refine Ensures.ofExcept_bind fun n _ => .bind (gatherArchiveElfs_settled rooted ?_) fun _ => .pure fun _ h => h
    exact fun e only => List.mem_singleton.mp only ▸ trivial
  | tree => exact .bind manifestTree_settled fun _ => .pure fun _ h => h
  | kmod => cases gathers
  | tryKmod => cases gathers
  | autorun => cases gathers
  | filter => cases gathers

-- The next line holds one of these directives, if it holds any.
def NextGathersFiles (fest : Fest) (_ : List Fest) (_ : State) : Prop :=
  ∀ bytes line etype args, fest.head? = some bytes → Utf8.decode bytes = some line →
    lineDirective line = some (etype,args) → etype.gathersFiles = true

theorem festVisit_settled (rooted : RunpathsAbsolute host) (gathers : NextGathersFiles fest rest s) :
    Ensures Settled (festVisit host conf fuel fest rest) fun _ => Settled :=
  festVisit_triple (fun _ h => h) (fun _ _ _ _ => trivial) fun bytes line etype args first decoded words =>
    directive_settled rooted (gathers bytes line etype args first decoded words)

-- From an empty archive and an empty set, after any number of lines.
theorem paths_seen_archived (rooted : RunpathsAbsolute host) (unwritten : s.archived = []) (unseen : s.pathsSeen = [])
    (gathers : Worklist.Meets (festVisit host conf fuel) NextGathersFiles fests s)
    (runs : Worklist.Runs (festVisit host conf fuel) fests s rest t) :
    (runCalls t.archived).run s.archive = (.ok (),t.archive) ∧
      (∀ cs, cs ∈ archivedPaths t.archived ↔ cs ∈ t.pathsSeen) ∧
      (archivedPaths t.archived).Nodup ∧
      ∀ before c after, t.archived = before ++ c :: after → Rooted before c.target := by
  have start : Logged s.archive s ∧ Settled s := by
    refine ⟨?_,?_⟩
    · unfold Logged
      rw [unwritten]
      rfl
    · refine ⟨?_,?_,?_⟩
      · simp [unwritten,unseen,archivedPaths]
      · simp [unwritten,archivedPaths]
      · intro before c after split
        rw [unwritten] at split
        simp at split
  obtain ⟨logged,settled⟩ := runs.invariant_meeting (fun _ t => Logged s.archive t ∧ Settled t) (by
    rintro fest rest s items t ⟨logged,settled⟩ next ran
    exact ⟨(festVisit_keeps (logged_stable _)).ok _ _ _ logged ran,(festVisit_settled rooted next).ok _ _ _ settled ran⟩)
    gathers start
  refine ⟨logged,fun cs => ?_,settled.once,settled.rooted⟩
  have same := settled.same cs
  simp only [List.not_mem_nil,or_false] at same
  exact same.symm

theorem festVisit_done (ran : (festVisit host conf fuel [] rest).run s = (.ok items,t)) : rest = items := by
  cases ran
  rfl

-- A manifest of one line on a machine without files: "dir /x/../a/b".
def bareHost : Host where
  cwd := [slash]
  symlinkMetadata := fun _ => .error (.ofKind .notFound)
  fileOpen := fun _ => .error (.ofKind .notFound)
  readDir := fun _ => .error (.ofKind .notFound)
  readLink := fun _ => .error (.ofKind .notFound)
  canonicalize := fun _ => .error (.ofKind .notFound)
  pathExists := fun _ => false
  cwd_absolute := root_absolute
  readDir_names := @lists_nothing
  canonicalize_absolute := @resolves_nothing
  elfOpen := fun _ => none
  kmodContextNew := fun _ => .error []

def emptyState : State := {archive:=.new {}}
def dirFest : Fest := [Utf8.encode "dir /x/../a/b\n".toList]
def dirVisit : Fest → List Fest → Gather (List Fest) := festVisit bareHost (fun _ => none) 0
@[irreducible] def dirRun : Except IoError Unit × State := (Worklist.loop spent dirVisit 2 [dirFest]).run emptyState

theorem dirFest_next : NextGathersFiles dirFest [] emptyState := by
  intro bytes line etype args first decoded known
  have read : Utf8.decode (Utf8.encode "dir /x/../a/b\n".toList) = some "dir /x/../a/b\n".toList := by decide +kernel
  have dir : lineDirective "dir /x/../a/b\n".toList = some (.dir,["/x/../a/b".toList]) := by decide +kernel
  have text : line = "dir /x/../a/b\n".toList := by
    rw [← Option.some.inj first] at decoded
    exact Option.some.inj (decoded.symm.trans read)
  rw [text,dir] at known
  cases known
  rfl

theorem dirFest_gathers : Worklist.Meets dirVisit NextGathersFiles [dirFest] emptyState := by
  refine Worklist.meets_cons dirFest_next fun items t ran => ?_
  have left : ((dirVisit dirFest []).run emptyState).1 = .ok [[]] := by decide +kernel
  have same : items = [[]] := Except.ok.inj ((congrArg Prod.fst ran).symm.trans left)
  rw [same]
  refine Worklist.meets_cons nofun fun items u ended => ?_
  rw [← festVisit_done ended]
  exact Worklist.meets_nil

theorem dirRun_ok : (Worklist.loop spent dirVisit 2 [dirFest]).run emptyState = (.ok (),dirRun.2) := by
  have succeeds : ((Worklist.loop spent dirVisit 2 [dirFest]).run emptyState).1 = .ok () := by decide +kernel
  unfold dirRun
  exact run_ok succeeds

theorem paths_seen_archived_dir : (∀ cs, cs ∈ archivedPaths dirRun.2.archived ↔ cs ∈ dirRun.2.pathsSeen) ∧
    dirRun.2.archived.map Call.target = ["/x","/a","/x/../a/b"].map fun p => Utf8.encode p.toList := by
  have rooted : RunpathsAbsolute bareHost := nofun
  have runs : Worklist.Runs dirVisit [dirFest] emptyState [] dirRun.2 := Worklist.loop_runs dirRun_ok
  have kept := paths_seen_archived rooted rfl rfl dirFest_gathers runs
  exact ⟨kept.2.1,by decide +kernel⟩

end Rapido.Cut

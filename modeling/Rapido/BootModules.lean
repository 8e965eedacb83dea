import Rapido.CutBoot

-- The modules that rapido-init loads: asked for by rapido.conf, found by rapido-cut.
namespace Rapido.Cut
open Text KvConf UnixPath Cpio Eff

-- A file that the guest can read is read with defaults behind it by the host.
theorem appendByteLines_overlay (defaults : Map) (lines : List (List UInt8)) (linenum : Nat) (buffer : Str) (guest : Map)
    (ran : appendByteLines linenum buffer guest lines = (.ok (),final)) :
    appendByteLines linenum buffer (overlay guest defaults) lines = (.ok (),overlay final defaults) := by
  induction lines generalizing linenum buffer guest with
  | nil =>
    unfold appendByteLines at ran ⊢
    split at ran
    · cases ran
    · cases ran
      rfl
  | cons bytes rest ih =>
    unfold appendByteLines at ran ⊢
    cases decoded : Utf8.decode bytes with
    | none =>
      rw [decoded] at ran
      cases ran
    | some line =>
      rw [decoded] at ran
      dsimp only at ran ⊢
      cases read : kvReadLine linenum [line] buffer with
      | error e =>
        rw [read] at ran
        cases ran
      | ok next =>
        obtain ⟨_,_,text⟩ := next
        rw [read] at ran
        dsimp only at ran ⊢
        cases processed : kvProcess text guest with
        | mk result left =>
          rw [processed] at ran
          cases result with
          | error e => cases ran
          | ok assigned =>
            rw [process_overlay defaults processed]
            cases assigned with
            | none => exact ih _ _ _ ran
            | some pair =>
              dsimp only at ran ⊢
              rw [overlay_insert]
              exact ih _ _ _ ran

theorem kvConfFileAppend_overlay (ran : kvConfFileAppend bytes .empty = (.ok (),guest)) :
    kvConfFileAppend bytes confDefaults = (.ok (),overlay guest confDefaults) :=
  appendByteLines_overlay confDefaults _ _ _ _ ran

-- A module that is built in, or whose path is seen.
def Gathered (gk : GatherKmods) (name : Name) (s : State) : Prop :=
  ∃ m, gk.kmodCtx.find name = some m ∧ (m.status = .builtin ∨ moduleDst gk m.relPath ∈ s.pathsSeen)

theorem gathered_stored (gk : GatherKmods) (name : Name) : Stored (fun _ => False) (Gathered gk name) where
  archived := fun _ _ _ known _ => known
  refused := fun _ _ _ _ known _ _ => known
  inserted := by
    rintro s cs ⟨m,found,there⟩
    exact ⟨m,found,there.imp_right (List.mem_cons_of_mem _)⟩
  missing := fun _ impossible => impossible.elim

theorem kmodAndDeps_gathered (ran : (gatherArchiveKmodAndDeps fs name gk).run s = (.ok (),t)) : Gathered gk name t := by
  obtain ⟨m,found,⟨builtin,rfl⟩ | ⟨_,seen,rfl⟩ | ⟨loadable,new⟩⟩ := kmodAndDeps_cases ran
  · exact ⟨m,found,.inl builtin⟩
  · exact ⟨m,found,.inr seen⟩
  · obtain ⟨rooted,deep,first,hard,soft⟩ := kmodAndDeps_stages found loadable new ran
    have own := (archiveKmodPath_keeps (seen_stored (moduleDst gk m.relPath))).ok _ _ _ List.mem_cons_self first
    exact ⟨m,found,.inr (seen_after_soft (seen_after_hard own hard) soft)⟩

-- Without ignore_missing every name has to be found.
theorem gatherOneKmod_gathered (ran : (gatherOneKmod fs gk false name).run s = (.ok (),t)) : Gathered gk name t := by
  unfold gatherOneKmod at ran
  dsimp only at ran
  split at ran
  · split at ran
    · cases ran
    · cases ran
  · exact kmodAndDeps_gathered ran

theorem confKmods_gathered (ran : (gatherConfKmods host conf).run s = (.ok (),t)) :
    ∃ gk, t.gk = some gk ∧ ∀ dep ∈ confKmodDeps conf, Gathered gk (Utf8.encode dep) t := by
  obtain ⟨gk,u,known,gathered⟩ := bind_ok.mp ran
  have each : ∀ name s t, s.gk = some gk → True → (gatherOneKmod host.toFileSystem gk false name).run s = (.ok (),t) →
      t.gk = some gk ∧ Gathered gk name t :=
    fun name s t same _ one => ⟨(gatherOneKmod_keeps (gk_stored gk) false).ok _ _ _ same one,gatherOneKmod_gathered one⟩
  have kept : ∀ name other s t, Gathered gk name s → (gatherOneKmod host.toFileSystem gk false other).run s = (.ok (),t) → Gathered gk name t :=
    fun name other s t done one => (gatherOneKmod_keeps (gathered_stored gk name) false).ok _ _ _ done one
  obtain ⟨same,all⟩ := forEach_meeting each kept (fun _ _ _ _ _ _ => trivial) gathered (knownKmods_sets known)
  exact ⟨gk,same,fun dep inside => all _ (List.mem_map_of_mem inside)⟩

theorem cutMain_gathered (ran : (cutMain host file conf fuel fests).run s = (.ok (),t)) :
    ∃ gk, t.gk = some gk ∧ ∀ dep ∈ confKmodDeps conf, Gathered gk (Utf8.encode dep) t := by
  obtain ⟨_,_,_,ran⟩ := bind_ok.mp ran
  obtain ⟨_,_,_,ran⟩ := bind_ok.mp ran
  obtain ⟨_,_,_,ran⟩ := bind_ok.mp ran
  obtain ⟨_,_,_,ran⟩ := bind_ok.mp ran
  obtain ⟨_,b,kmods,ran⟩ := bind_ok.mp ran
  obtain ⟨_,d,links,ended⟩ := bind_ok.mp ran
  obtain ⟨gk,known,gathered⟩ := confKmods_gathered kmods
  have later : ∀ {inv : State → Prop}, Stored (fun _ => False) inv → inv b → inv t := fun stored before =>
    (archive_keeps stored).ok d _ t ((populateDefaultSymlinks_keeps stored).ok b _ d before links) ended
  exact ⟨gk,later (gk_stored gk) known,fun dep inside => later (gathered_stored gk _) (gathered dep inside)⟩

end Rapido.Cut

namespace Rapido.BootModules
open Text KvConf Kcmdline Cpio Eff Journal GuestInit VmStart Handoff CutBoot

variable {session : Cut.Session} {machine : Machine} {guest : Guest}

-- What the archive has for /rapido.conf.
inductive ConfBytes : List Call → List UInt8 → Prop where
  | absent : ConfBytes (.path (Cut.asPath "/rapido.conf") amd :: rest) []
  | copied : ConfBytes (.file (Cut.asPath "/rapido.conf") amd bytes :: rest) bytes

-- The host's map is that of the guest, with the defaults behind it.
theorem configured_overlay (configured : Cut.Configured session conf file) (first : Cut.ConfCall file c)
    (read : ConfBytes (c :: calls) bytes) (parsed : Cut.kvConfFileAppend bytes .empty = (.ok (),told)) :
    conf = overlay told confDefaults := by
  have host : Cut.kvConfFileAppend bytes confDefaults = (.ok (),conf) := by
    cases configured with
    | defaults missing kind =>
      cases first
      cases read
      rfl
    | read found described accepted =>
      cases first
      cases read
      exact accepted
  have same := host.symm.trans (Cut.kvConfFileAppend_overlay parsed)
  exact congrArg Prod.snd same

theorem share_overlay (told : Map) : (overlay told confDefaults) "VIRTFS_SHARE_PATH".toList = told "VIRTFS_SHARE_PATH".toList := by
  have none : confDefaults "VIRTFS_SHARE_PATH".toList = none := by decide +kernel
  unfold overlay
  rw [none,Option.or_none]

theorem started_virtfs (read : confGet machine = .ok conf) (started : (command,launched) ∈ ((VmStart.main machine).run []).2) :
    (virtfsParams conf).map Utf8.encode <:+: command.args := by
  obtain ⟨_,_,_,_,made⟩ := started_made read started
  obtain ⟨qemuArgs,rscs,_,stash,kcmdline,_,_,_,_,rfl⟩ := vmCommand_ok made
  refine .trans ?_ (List.suffix_append _ _).isInfix
  rw [List.append_assoc,List.map_append]
  exact (List.prefix_append _ _).isInfix

-- Where init hands over, the modules that rapido.conf needs are loaded, rapido-cut
-- has found every one of them, and a share that QEMU offers has been mounted.
theorem boot_modules (ran : (Cut.main session fuel).run Cut.beginning = (.ok (),t)) (opened : t.output = some p)
    (unpacked : ∀ log reply, guest.answer log .openConf = .ok reply → ConfBytes t.cut.archived reply.data)
    (same : SameConf session machine) (split : ((initMain guest).run []).2 = front ++ (a,b) :: back) (hands : HandsOver a envs) :
    ∃ hasNet conf gk, Configured conf front ∧ Found hasNet front ∧ Loaded (kmodsOf conf hasNet) front ∧
      t.cut.gk = some gk ∧ (∀ dep ∈ confKmodDeps conf, Cut.Gathered gk (Utf8.encode dep) t.cut) ∧
      ∀ share, conf "VIRTFS_SHARE_PATH".toList = some share → Done (.command (lit "mount") hostArgs []) front ∧
        ∀ command launched, (command,launched) ∈ ((VmStart.main machine).run []).2 →
          [Utf8.encode "-virtfs".toList,Utf8.encode ("local,path=".toList ++ share ++
            ",mount_tag=host0,security_model=mapped,id=host0".toList)] <:+: command.args := by
  obtain ⟨ordered,needs⟩ := initMain_front split
  obtain ⟨hasNet,kcliArgs,n,ready,_⟩ := handsOver_prepared needs hands
  obtain ⟨conf,⟨file,inside,parsed⟩,found,loaded,shared⟩ := ready.equipped
  obtain ⟨earlier,answered⟩ := ordered.answered inside
  have bytes := unpacked earlier file answered.symm
  obtain ⟨argsState,hostConf,source,c,calls,entries,plan,first,archived,_,_⟩ := Cut.main_written ran opened
  rw [archived,List.cons_append] at bytes
  have overlaid := configured_overlay plan.configured first bytes parsed
  obtain ⟨gk,known,gathered⟩ := Cut.cutMain_gathered (Cut.planned_cut plan ran)
  rw [overlaid] at gathered
  refine ⟨hasNet,conf,gk,⟨file,inside,parsed⟩,found,loaded,known,fun dep needed => gathered dep (kmodDeps_overlay conf needed),?_⟩
  intro share given
  refine ⟨shared (by rw [given]; rfl),fun command launched started => ?_⟩
  have offered := started_virtfs (confGet_configured same plan.configured) started
  rw [overlaid,virtfsParams,share_overlay,given] at offered
  exact offered

-- The guest of that image.
def shareGuest : Guest := {sampleGuest with
  answer := fun log a => match a with
    | .openConf => .ok {data:=shareFile.2}
    | a => sampleGuest.answer log a}

theorem share_unpacked (log : Log Action GuestInit.Outcome) (reply : Reply)
    (answered : shareGuest.answer log .openConf = .ok reply) : ConfBytes shareRun.2.cut.archived reply.data := by
  obtain ⟨calls,archived⟩ := List.head?_eq_some_iff.mp share_facts.2.2.1
  cases answered
  rw [archived]
  exact .copied

theorem share_hands : ((initMain shareGuest).run []).2.any (fun entry => entry.1 ==
    .spawn (lit "setsid") shellArgs (envsOf "guest".toList (expected sampleBoot 1))) = true := by
  decide +kernel

theorem share_value : (Cut.kvConfFileAppend shareFile.2 .empty).2 "VIRTFS_SHARE_PATH".toList = some "/srv".toList := by
  decide +kernel

theorem share_read (ordered : Ordered shareGuest.answer (Needs shareGuest) log) (configured : Configured conf log) :
    conf "VIRTFS_SHARE_PATH".toList = some "/srv".toList := by
  obtain ⟨file,there,parsed⟩ := configured
  obtain ⟨earlier,answered⟩ := ordered.answered there
  have same : file.data = shareFile.2 := by
    have given : shareGuest.answer earlier .openConf = .ok {data:=shareFile.2} := rfl
    rw [given] at answered
    rw [Except.ok.inj answered]
  have value := share_value
  rw [same] at parsed
  rw [parsed] at value
  exact value

theorem share_boots : ∃ front hasNet conf gk, Configured conf front ∧ Loaded (kmodsOf conf hasNet) front ∧
    shareRun.2.cut.gk = some gk ∧ Cut.Gathered gk (Utf8.encode "9p".toList) shareRun.2.cut ∧
    Done (.command (lit "mount") hostArgs []) front ∧ ∃ command ∈ ((VmStart.main shareMachine).run []).2.map Prod.fst,
      [Utf8.encode "-virtfs".toList,Utf8.encode ("local,path=".toList ++ "/srv".toList ++
        ",mount_tag=host0,security_model=mapped,id=host0".toList)] <:+: command.args := by
  obtain ⟨⟨a,b⟩,inside,shell⟩ := List.any_eq_true.mp share_hands
  obtain ⟨front,back,split⟩ := List.append_of_mem inside
  obtain ⟨hasNet,conf,gk,configured,_,loaded,known,gathered,shares⟩ := boot_modules shareRun_ok
    share_facts.2.1 share_unpacked share_same split (.inl ⟨shellArgs,beq_iff_eq.mp shell⟩)
  have share := share_read (initMain_front split).1 configured
  obtain ⟨mounted,offers⟩ := shares _ share
  obtain ⟨command,launched,started⟩ := share_started
  have needed : "9p".toList ∈ confKmodDeps conf := by
    unfold confKmodDeps
    rw [share]
    exact List.mem_append_right _ (by decide)
  exact ⟨front,hasNet,conf,gk,configured,loaded,known,gathered _ needed,mounted,command,List.mem_map_of_mem started,
    offers command launched started⟩

end Rapido.BootModules

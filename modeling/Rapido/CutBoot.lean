import Rapido.Handoff

-- From rapido-cut to rapido-vm: the image that was cut is the one that is booted.
namespace Rapido.CutBoot
open Text KvConf UnixPath Cpio Newc Eff Journal VmStart Handoff

variable {session : Cut.Session} {machine : Machine} {argsState : Cut.ArgsState} {conf : Map}

-- Both programs look for rapido.conf at the same place and find the same there.
def SameConf (session : Cut.Session) (machine : Machine) : Prop :=
  Cut.hostRapidoConfOpen machine.toFileSystem machine.rapidoConf Cut.RAPIDO_CONF_PATH =
    Cut.hostRapidoConfOpen session.toFileSystem session.rapidoConf Cut.RAPIDO_CONF_PATH

theorem confGet_configured (same : SameConf session machine) (configured : Cut.Configured session conf file) :
    confGet machine = .ok conf := by
  unfold confGet
  rw [show Cut.hostRapidoConfOpen machine.toFileSystem machine.rapidoConf Cut.RAPIDO_CONF_PATH = _ from same]
  cases configured with
  | defaults missing kind =>
    rw [missing]
    exact if_pos kind
  | read found described accepted =>
    rw [found]
    dsimp only
    rw [accepted]

-- What is started has its resources from the image.
theorem started_resources (read : confGet machine = .ok conf) (started : (command,launched) ∈ ((main machine).run []).2) :
    ∃ img qemuArgs rscs vmPidFile rest, conf "DRACUT_OUT".toList = some img ∧ imageResources machine img = .ok rscs ∧
      command.args = bootParams qemuArgs rscs vmPidFile img ++ rest := by
  obtain ⟨_,_,img,out,made⟩ := started_made read started
  obtain ⟨qemuArgs,rscs,_,stash,kcmdline,_,finds,_,_,rfl⟩ := vmCommand_ok made
  exact ⟨img,qemuArgs,rscs,_,_,out,finds.resources,List.append_assoc ..⟩

-- The CPUs, the memory and the network of a VM are those of the manifests its
-- image was cut from, where these keep the rapido-rsc entries together.
theorem cut_boots (ran : (Cut.main session fuel).run Cut.beginning = (.ok (),t))
    (asked : Cut.argsProcess session.toFileSystem session.args = .ok argsState) (default : argsState.cpioOutputArg = none)
    (same : SameConf session machine) (opened : t.output = some p) (stored : machine.fileOpen p = .ok (md,t.cut.archive.out))
    (bounded : t.cut.archive.out.length < 2^63) (started : (command,launched) ∈ ((main machine).run []).2) :
    ∃ calls entries img qemuArgs rscs vmPidFile rest, t.cut.archived = calls ++ [.trailer] ∧
      Wrote (Vm.cutProps 4096) 0 (Vm.cutProps 4096).initialIno calls entries ∧ p = Utf8.encode img ∧
      command.args = bootParams qemuArgs rscs vmPidFile img ++ rest ∧
      Vm.scanNames .defaults false (entries.map Vm.visibleName) = .ok rscs ∧
      (Vm.Consecutive (((shown entries).map entOf).map ArchiveEnt.visible) →
        Vm.LastWins (((shown entries).map entOf).map ArchiveEnt.visible) rscs) := by
  obtain ⟨argsState',conf,file,c,calls,entries,plan,_,archived,wrote,image⟩ := Cut.main_written ran opened
  cases asked.symm.trans plan.asked
  obtain ⟨img,qemuArgs,rscs,vmPidFile,rest,out,found,args⟩ := started_resources (confGet_configured same plan.configured) started
  have path : p = Utf8.encode img := by
    have goes := plan.goes
    rw [Cut.imagePath,default,out] at goes
    exact (Option.some.inj goes).symm
  subst path
  rw [image] at bounded stored
  obtain ⟨lists,scanned⟩ := Cut.image_read ⟨rfl,rfl⟩ (by decide) wrote bounded
  have read : Vm.scanNames .defaults false (entries.map Vm.visibleName) = .ok rscs := by
    unfold imageResources at found
    rw [stored] at found
    rw [← found]
    change _ = (Vm.vmResourcesGet _).getD _
    rw [scanned]
    rfl
  refine ⟨c :: calls,entries,img,qemuArgs,rscs,vmPidFile,rest,archived,wrote,rfl,args,read,fun together => ?_⟩
  rw [read] at scanned
  have whole : Lists (entries.flatMap Entry.encode ++ trailerEntry.encode) ([] ++ (shown entries).map entOf) := lists
  have grouped : if false = true then Vm.Closing (((shown entries).map entOf).map ArchiveEnt.visible)
      else Vm.Consecutive (((shown entries).map entOf).map ArchiveEnt.visible) := together
  exact Vm.settle_last (Vm.loop_settles whole grouped scanned).symm

-- A rapido.conf with a share, a kernel with every module built in, and a machine
-- that has the image of them.
def shareFile : Metadata × List UInt8 := ({Cut.plainMd (S_IFREG ||| 0o644) 1 with len:=23},GuestInit.lit "VIRTFS_SHARE_PATH=/srv\n")
def versionFile : Metadata × List UInt8 := (Cut.emptyMd,GuestInit.lit "Linux version 6 built\n")

def shareSession : Cut.Session := {Cut.sampleSession with
  args := []
  fileOpen := fun p =>
    if p = Utf8.encode Cut.RAPIDO_CONF_PATH then .ok shareFile
    else if p = Utf8.encode "/proc/version".toList then .ok versionFile
    else .ok (Cut.emptyMd,[])
  kmodContextNew := fun root => .ok ⟨fun _ => some Cut.virtioRng,fun _ => none,root⟩
  cwd_absolute := root_absolute
  readDir_names := @lists_nothing
  canonicalize_absolute := @resolves_nothing}

@[irreducible] def shareRun : Except IoError Unit × Cut.Progress := (Cut.main shareSession 9).run Cut.beginning

def shareMachine : Machine := {sampleMachine with
  fileOpen := fun path =>
    if path = Utf8.encode Cut.RAPIDO_CONF_PATH then .ok shareFile
    else if path = Utf8.encode "/proc/version".toList then .ok versionFile
    else if path = Utf8.encode "initrds/myinitrd".toList then .ok (Cut.emptyMd,shareRun.2.cut.archive.out)
    else sampleMachine.fileOpen path
  cwd_absolute := root_absolute
  readDir_names := sampleMachine.readDir_names
  canonicalize_absolute := @resolves_nothing}

theorem share_facts : shareRun.1 = .ok () ∧ shareRun.2.output = some (Utf8.encode "initrds/myinitrd".toList) ∧
    shareRun.2.cut.archived.head? = some (.file (Cut.asPath "/rapido.conf") ⟨1,S_IFREG ||| 0o644,0,0,0,0,0,23⟩ shareFile.2) ∧
    (∀ c ∈ shareRun.2.cut.archived, ¬c.Named trailerName) ∧ shareRun.2.cut.archive.out.length < 2^63 ∧
    ((main shareMachine).run []).2 ≠ [] := by
  decide +kernel

theorem shareRun_ok : (Cut.main shareSession 9).run Cut.beginning = (.ok (),shareRun.2) := by
  have succeeds := share_facts.1
  unfold shareRun at succeeds ⊢
  exact run_ok succeeds

theorem share_same : SameConf shareSession shareMachine := by
  unfold SameConf Cut.hostRapidoConfOpen
  dsimp only [shareSession,shareMachine,Cut.sampleSession,sampleMachine]
  rw [if_pos rfl,if_pos rfl]

theorem share_stored : shareMachine.fileOpen (Utf8.encode "initrds/myinitrd".toList) = .ok (Cut.emptyMd,shareRun.2.cut.archive.out) := by
  dsimp only [shareMachine]
  rw [if_neg (by decide),if_neg (by decide),if_pos rfl]

theorem share_started : ∃ command launched, (command,launched) ∈ ((main shareMachine).run []).2 := by
  obtain ⟨⟨command,launched⟩,rest,logged⟩ := List.exists_cons_of_ne_nil share_facts.2.2.2.2.2
  rw [logged]
  exact ⟨command,launched,List.mem_cons_self⟩

theorem share_booted : ∃ calls entries command qemuArgs rscs vmPidFile img rest, shareRun.2.cut.archived = calls ++ [.trailer] ∧
    Wrote (Vm.cutProps 4096) 0 (Vm.cutProps 4096).initialIno calls entries ∧
    command ∈ ((main shareMachine).run []).2.map Prod.fst ∧ command.args = bootParams qemuArgs rscs vmPidFile img ++ rest ∧
    Vm.scanNames .defaults false (entries.map Vm.visibleName) = .ok rscs := by
  obtain ⟨_,opened,_,_,bounded,_⟩ := share_facts
  have asked : Cut.argsProcess shareSession.toFileSystem shareSession.args = .ok {} := by decide +kernel
  obtain ⟨command,launched,started⟩ := share_started
  obtain ⟨calls,entries,img,qemuArgs,rscs,vmPidFile,rest,archived,wrote,_,args,scanned,_⟩ :=
    cut_boots shareRun_ok asked rfl share_same opened share_stored bounded started
  exact ⟨calls,entries,command,qemuArgs,rscs,vmPidFile,img,rest,archived,wrote,List.mem_map_of_mem started,args,scanned⟩

end Rapido.CutBoot

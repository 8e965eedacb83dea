import Rapido.Handoff
import Rapido.AbsolutePaths

-- The unwrap() and expect() calls of src/bin/rapido-vm.rs.
namespace Rapido.Cpio
open Radix Newc

def Fault.Returned (fault : Fault) : Prop := ∀ e, fault = .err e → e.kind ≠ .panic

theorem fieldNth_returned (k : Nat) : Eff.FailsOnly Fault.Returned (fieldNth k) where
  ok := fun _ _ _ _ _ => trivial
  error := by
    intro chunks fault after _ ran
    unfold fieldNth at ran
    dsimp only at ran
    split at ran
    · cases ran
      exact nofun
    · split at ran
      · cases ran
      · cases ran
        rintro e ⟨⟩
        exact nofun

theorem newcFields_returned : Eff.FailsOnly Fault.Returned newcFields := by
  unfold newcFields
  iterate 9 refine .bind (fieldNth_returned _) fun _ => ?_
  split
  · refine .fail ?_
    rintro e ⟨⟩
    exact nofun
  · exact .pure

theorem readExact_returned (failed : Reader.readExact r n = (.error e,after)) : e.kind ≠ .panic := by
  unfold Reader.readExact at failed
  split at failed
  · cases failed
  · cases failed
    exact nofun

theorem nextEntry_returned (failed : nextEntry md namesize r = (.item (.error e),after)) : e.kind ≠ .panic := by
  unfold nextEntry at failed
  split at failed
  · cases failed
  · split at failed
    · rename_i read
      cases failed
      exact readExact_returned read
    · dsimp only at failed
      split at failed
      · cases failed
      · split at failed
        · rename_i sought
          cases failed
          unfold Reader.seekCurrent at sought
          split at sought
          · cases sought
          · cases sought
            exact nofun
        · split at failed
          · cases failed
          · split at failed
            · cases failed
            · cases failed

theorem next_returned (failed : next r = (.item (.error e),after)) : e.kind ≠ .panic := by
  unfold next at failed
  split at failed
  · rename_i read
    split at failed
    · cases failed
    · cases failed
      exact readExact_returned read
  · split at failed
    · split at failed
      · cases failed
      · rename_i decoded
        cases failed
        exact newcFields_returned.error _ _ _ trivial (Prod.ext decoded rfl) e rfl
      · exact nextEntry_returned failed
    · cases failed
      exact nofun

end Rapido.Cpio

namespace Rapido.VmStart
open Text KvConf Kcmdline UnixPath Cpio Journal

-- An error that is returned, and not a panic.
abbrev Returned (e : IoError) : Prop := e.kind ≠ .panic

def Calm (outcome : Except IoError α) : Prop := ∀ e, outcome = .error e → Returned e

theorem Calm.ok (value : α) : Calm (.ok value) := nofun

theorem Calm.error (kind : e.kind ≠ .panic) : Calm (.error e : Except IoError α) := by
  rintro _ ⟨⟩
  exact kind

theorem Calm.bind {first : Except IoError α} {next : α → Except IoError β} (calm : Calm first)
    (rest : ∀ value, first = .ok value → Calm (next value)) : Calm (first >>= next) := by
  cases first with
  | error e => exact .error (calm e rfl)
  | ok value => exact rest value rfl

theorem Calm.map {outcome : Except IoError α} (calm : Calm outcome) (f : α → β) : Calm (outcome.map f) := by
  cases outcome with
  | error e => exact .error (calm e rfl)
  | ok value => exact .ok _

variable {machine : Machine} {conf : Map} (returns : Cut.Returns machine.toFileSystem)

theorem firstFile_calm (machine : Machine) (candidates : List Str) : Calm (firstFile machine candidates) := by
  unfold firstFile
  split
  · exact .ok _
  · exact .error nofun

theorem ksKernelImg_calm (known : krel = none → ∃ c ks, ksrc = some (c :: ks)) (ksRelpath hostPrefix : String) :
    Calm (ksKernelImg machine ksrc ksRelpath hostPrefix krel) := by
  unfold ksKernelImg
  split
  · exact firstFile_calm machine _
  · rename_i other
    split
    · obtain ⟨c,ks,rfl⟩ := known rfl
      exact absurd rfl (other c ks)
    · exact firstFile_calm machine _

include returns in
theorem kernelRelease_calm (conf : Map) : Calm (kernelRelease machine conf) := by
  unfold kernelRelease
  split
  · exact .ok _
  · refine .bind (fun e failed => returns.fileOpen _ e failed) fun file _ => ?_
    obtain ⟨_,kvers⟩ := file
    dsimp only
    unfold hostKernelVersParse
    split
    · exact .error nofun
    · split
      · split
        · exact .ok _
        · exact .error nofun
      · exact .error nofun

include returns in
theorem kconfigOpen_calm (conf : Map) : Calm (kconfigOpen machine conf) := by
  unfold kconfigOpen
  split
  · exact .bind (fun e failed => returns.fileOpen _ e failed) fun file _ => .ok _
  · refine .bind (kernelRelease_calm returns conf) fun krel _ => ?_
    split
    · exact .ok _
    · split
      · exact .ok _
      · rename_i failed
        exact .error (returns.fileOpen _ _ failed)

-- Without a release there is a KERNEL_SRC.
theorem kconfigOpen_source (opened : kconfigOpen machine conf = .ok (data,none)) : ∃ c ks, conf "KERNEL_SRC".toList = some (c :: ks) := by
  unfold kconfigOpen at opened
  split at opened
  · rename_i c ks given
    exact ⟨c,ks,given⟩
  · obtain ⟨krel,_,opened⟩ := except_bind_ok.mp opened
    split at opened
    · cases opened
    · split at opened
      · cases opened
      · cases opened

include returns in
theorem vmQemuArgsGet_calm (conf : Map) : Calm (vmQemuArgsGet machine conf) := by
  refine .bind (kconfigOpen_calm returns conf) fun file opened => ?_
  obtain ⟨kconfig,krel⟩ := file
  dsimp only
  split
  · exact .error nofun
  · refine .bind (ksKernelImg_calm ?_ _ _) fun _ _ => .ok _
    rintro rfl
    exact kconfigOpen_source opened

include returns in
theorem readToString_calm (path : Path) : Calm (readToString machine.toFileSystem path) := by
  refine .bind (fun e failed => returns.fileOpen _ e failed) fun file _ => ?_
  obtain ⟨_,data⟩ := file
  dsimp only
  split
  · exact .ok _
  · exact .error nofun

include returns in
theorem hostnameParam_calm (netDir : Str) (net : Bool) : Calm (hostnameParam (vmHost machine conf netDir net)) := by
  unfold hostnameParam
  split
  · rename_i e failed
    split
    · exact .ok _
    · exact .error (readToString_calm returns _ e failed)
  · exact .ok _

theorem tapOf_calm (host : VmHost) (entry : List UInt8) : Calm (tapOf host entry) := by
  unfold tapOf
  split
  · exact .ok _
  · split
    · exact .ok _
    · split
      · exact .ok _
      · split
        · exact .ok _
        · split
          · split
            · exact .error nofun
            · exact .ok _
          · exact .error nofun

theorem tapsOf_calm (host : VmHost) (entries : List (List UInt8)) : Calm (tapsOf host entries) := by
  induction entries with
  | nil => exact .ok _
  | cons entry rest ih => exact .bind (tapOf_calm host entry) fun _ _ => .bind ih fun _ _ => .ok _

include returns in
theorem netParamsStash_calm (netDir : Str) (net : Bool) (vmNum : UInt64) :
    Calm (netParamsStash (vmHost machine conf netDir net) vmNum) := by
  unfold netParamsStash
  split
  · exact .bind (fun e failed => returns.readDir _ e failed) fun _ _ => .bind (tapsOf_calm _ _) fun _ _ => .ok _
  · exact .ok _

include returns in
theorem netParams_calm (netDir : Str) (net : Bool) (vmNum : UInt64) : Calm (netParams (vmHost machine conf netDir net) vmNum) := by
  unfold netParams
  split
  · exact .bind (fun e failed => returns.readDir _ e failed) fun _ _ => .bind (tapsOf_calm _ _) fun _ _ => .ok _
  · exact .ok _

theorem qemuConsole_calm (host : VmHost) : Calm (qemuConsole host) := by
  unfold qemuConsole
  split
  · exact .ok _
  · exact .error nofun

include returns in
theorem vmKcmdline_calm (netDir : Str) (net : Bool) (vmNum : UInt64) : Calm (vmKcmdline (vmHost machine conf netDir net) vmNum) :=
  .bind (qemuConsole_calm _) fun _ _ => .bind (hostnameParam_calm returns _ _) fun _ _ =>
    .bind (netParams_calm returns _ _ _) fun _ _ => .ok _

theorem lineProcess_calm (line : List UInt8) (rscs : Vm.VmResources) : Calm (Vm.vmResourceLineProcess line rscs) := by
  unfold Vm.vmResourceLineProcess
  split
  · unfold Vm.parseCpus
    split
    · exact .ok _
    · rename_i failed
      split at failed
      · cases failed
      · cases failed
        exact .error nofun
  · split
    · unfold Vm.parseMem
      split
      · exact .ok _
      · rename_i failed
        split at failed
        · split at failed
          · cases failed
          · cases failed
            exact .error nofun
        · split at failed
          · cases failed
          · cases failed
            exact .error nofun
    · split
      · exact .ok _
      · split
        · exact .ok _
        · split
          · exact .ok _
          · exact .ok _

theorem resourcesLoop_calm (fuel : Nat) (rscs : Vm.VmResources) (inRsc : Bool) (r : Reader)
    (ended : Vm.resourcesLoop fuel rscs inRsc r = some outcome) : Calm outcome := by
  induction fuel generalizing rscs inRsc r with
  | zero => cases ended
  | succ fuel ih =>
    have walked := next_walked r
    unfold Vm.resourcesLoop at ended
    split at ended
    · rename_i panicked
      rw [panicked] at walked
      cases walked
    · cases ended
      exact .ok _
    · rename_i failed
      cases ended
      exact .error (next_returned failed)
    · split at ended
      · rename_i failed
        cases ended
        exact .error (lineProcess_calm _ _ _ failed)
      · exact ih _ _ _ ended
      · split at ended
        · cases ended
          exact .ok _
        · exact ih _ _ _ ended

include returns in
theorem imageResources_calm (initramfsImg : Str) : Calm (imageResources machine initramfsImg) := by
  refine .bind (fun e failed => returns.fileOpen _ e failed) fun file _ => ?_
  obtain ⟨_,img⟩ := file
  obtain ⟨outcome,ended⟩ := Vm.vmResources_total img
  dsimp only
  rw [ended]
  exact resourcesLoop_calm _ _ _ _ ended

include returns in
theorem vmCommand_calm (known : (conf "VM_NET_CONF".toList).isSome = true) (vmNum : UInt64) (vmPidFile img : Str) :
    Calm (vmCommand machine conf vmNum vmPidFile img) := by
  have set : Calm (vmNetConf conf) := by
    unfold vmNetConf
    split
    · exact .ok _
    · rename_i unset
      rw [unset] at known
      cases known
  exact .bind (vmQemuArgsGet_calm returns conf) fun _ _ => .bind set fun _ _ => .bind (hostnameParam_calm returns _ _) fun _ _ =>
    .bind (imageResources_calm returns img) fun _ _ => .bind (netParamsStash_calm returns _ _ _) fun _ _ =>
    .bind (vmKcmdline_calm returns _ _ _) fun _ _ => .ok _

include returns in
theorem confGet_calm : Calm (confGet machine) := by
  unfold confGet
  split
  · rename_i e failed
    split
    · exact .ok _
    · refine .error ?_
      unfold Cut.hostRapidoConfOpen at failed
      split at failed
      · split at failed
        · rename_i opened
          cases failed
          split
          · exact nofun
          · exact returns.fileOpen _ _ opened
        · cases failed
      · split at failed
        · rename_i opened
          cases failed
          exact returns.fileOpen _ _ opened
        · cases failed
      · cases failed
        exact nofun
  · split
    · rename_i failed
      exact .error (Cut.kvConfFileAppend_calm failed)
    · exact .ok _

include returns in
theorem vmIsRunning_calm (pidDir : Str) (vmNum : Nat) : Calm (VmNumbers.vmIsRunning (pidFiles machine pidDir) vmNum) := by
  unfold VmNumbers.vmIsRunning
  split
  · rename_i e failed
    split
    · exact .ok _
    · have opened : Calm ((machine.fileOpen (Utf8.encode (pidPath pidDir vmNum))).map (·.2)) :=
        .map (fun e failed => returns.fileOpen _ e failed) _
      exact .error (opened e failed)
  · split
    · rename_i failed
      unfold VmNumbers.readLine at failed
      dsimp only at failed
      split at failed
      · cases failed
        exact .error nofun
      · cases failed
    · split
      · exact .error nofun
      · exact .ok _

-- QEMU can fail to start, and waiting for it can fail.
def Launches (machine : Machine) : Prop := ∀ log command e, machine.launch log command = .error e → Returned e

include returns in
theorem vmStart_returned (launches : Launches machine) (known : (conf "VM_NET_CONF".toList).isSome = true) (vmNum : UInt64)
    (vmPidFile img : Str) : Eff.FailsOnly Returned (vmStart machine conf vmNum vmPidFile img) := by
  refine .bind (.ofExcept (vmCommand_calm returns known vmNum vmPidFile img)) fun command => ?_
  have launched : Eff.Triple (fun _ => True) (perform machine.launch command : Start Launched)
      (fun launched _ => ∀ e, launched = .error e → Returned e) fun e _ => Returned e := by
    refine ⟨?_,?_⟩
    · rintro log _ _ _ ⟨⟩
      exact launches log command
    · rintro log _ _ _ ⟨⟩
  refine Eff.Triple.bind launched fun outcome => ?_
  split
  · rename_i e
    exact .fail fun _ fine => fine e rfl
  · exact .fail fun _ _ => nofun
  · exact .pure fun _ _ => trivial

include returns in
theorem startFirst_returned (launches : Launches machine) (known : (conf "VM_NET_CONF".toList).isSome = true) (pidDir img : Str)
    (nums : List Nat) : Eff.FailsOnly Returned (startFirst machine conf pidDir img nums) := by
  induction nums with
  | nil => exact .pure
  | cons vmNum rest ih =>
    refine .bind (.ofExcept (vmIsRunning_calm returns pidDir vmNum)) fun running => ?_
    split
    · exact ih
    · exact vmStart_returned returns launches known _ _ _

-- Whatever is in rapido.conf, the kernel's config, the pid files, the image and
-- the network configuration, rapido-vm ends by returning.
theorem main_unpanicked (machine : Machine) (returns : Cut.Returns machine.toFileSystem) (launches : Launches machine)
    (log : Log Command Launched) (failed : ((main machine).run log).1 = .error e) : e.kind ≠ .panic := by
  cases read : confGet machine with
  | error other =>
    unfold main at failed
    rw [read] at failed
    cases failed
    exact confGet_calm returns e read
  | ok conf =>
    obtain ⟨pidDir,img,_,_,body⟩ := main_body read
    have known := confGet_defaults read (show (confDefaults "VM_NET_CONF".toList).isSome = true by decide)
    rw [body] at failed
    exact (startFirst_returned returns launches known pidDir img _).error log e _ trivial (Prod.ext failed rfl)

end Rapido.VmStart

namespace Rapido.Handoff
open VmStart Journal

-- The sample machine has no /proc/version.
theorem sample_returns : Cut.Returns sampleMachine.toFileSystem where
  symlinkMetadata := by
    rintro _ _ ⟨⟩
    exact nofun
  fileOpen := by
    intro p e failed
    unfold sampleMachine at failed
    dsimp only at failed
    cases found : sampleFile p with
    | none =>
      rw [found] at failed
      cases failed
      exact nofun
    | some data =>
      rw [found] at failed
      cases failed
  readDir := by
    rintro _ _ ⟨⟩
  readLink := by
    rintro _ _ ⟨⟩
    exact nofun

theorem sample_unpanicked : ∃ e, ((VmStart.main sampleMachine).run []).1 = .error e ∧ e.kind ≠ .panic := by
  have fails : ((VmStart.main sampleMachine).run []).1 = .error (.ofKind .notFound) := by decide +kernel
  refine ⟨_,fails,main_unpanicked sampleMachine sample_returns ?_ [] fails⟩
  rintro _ _ _ ⟨⟩

end Rapido.Handoff

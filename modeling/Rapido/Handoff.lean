import Rapido.GuestOrder
import Rapido.VmStart
import Rapido.VmScan

-- From rapido-vm to rapido-init: a guest sets itself up as the VM that was started.
namespace Rapido.Handoff
open Text KvConf Kcmdline Journal GuestInit VmStart

variable {machine : Machine} {conf : Map} {vmNum : UInt64} {host : VmHost} {guest : Guest}

-- What vm_start finds for a VM.
structure Finds (machine : Machine) (conf : Map) (vmNum : UInt64) (initramfsImg : Str) (rscs : Vm.VmResources) (host : VmHost) : Prop where
  resources : imageResources machine initramfsImg = .ok rscs
  around : ∃ dir, vmNetConf conf = .ok dir ∧ host = vmHost machine conf (netConfDir dir vmNum) rscs.net

theorem Finds.unique (finds : Finds machine conf vmNum img rscs host) (again : Finds machine conf vmNum img rscs' host') :
    rscs = rscs' ∧ host = host' := by
  obtain ⟨read,dir,named,rfl⟩ := finds
  obtain ⟨read',dir',named',rfl⟩ := again
  rw [named] at named'
  rw [read] at read'
  cases named'
  cases read'
  exact ⟨rfl,rfl⟩

theorem vmCommand_ok (made : vmCommand machine conf vmNum vmPidFile img = .ok command) :
    ∃ qemuArgs rscs host stash kcmdline, vmQemuArgsGet machine conf = .ok qemuArgs ∧ Finds machine conf vmNum img rscs host ∧
      netParamsStash host vmNum = .ok stash ∧ vmKcmdline host vmNum = .ok kcmdline ∧
      command = ⟨qemuArgs.qemuBin,bootParams qemuArgs rscs vmPidFile img ++ [Utf8.encode "-append".toList,Utf8.encode kcmdline] ++
        (virtfsParams conf ++ extraArgs conf ++ stash).map Utf8.encode⟩ := by
  obtain ⟨qemuArgs,args,made⟩ := except_bind_ok.mp made
  obtain ⟨dir,named,made⟩ := except_bind_ok.mp made
  obtain ⟨_,_,made⟩ := except_bind_ok.mp made
  obtain ⟨rscs,read,made⟩ := except_bind_ok.mp made
  obtain ⟨stash,stashed,made⟩ := except_bind_ok.mp made
  obtain ⟨kcmdline,built,made⟩ := except_bind_ok.mp made
  exact ⟨qemuArgs,rscs,_,stash,kcmdline,args,⟨read,dir,named,rfl⟩,stashed,built,(Except.ok.inj made).symm⟩

-- Where init hands the machine over to a shell or to systemd.
def HandsOver (a : Action) (envs : List (String × List UInt8)) : Prop :=
  (∃ args, a = .spawn (lit "setsid") args envs) ∨ a = .exec SYSTEMD_BIN_PATH (("DRACUT_SYSTEMD",lit "1") :: envs)

theorem handsOver_prepared (met : Needs guest a log) (hands : HandsOver a envs) :
    ∃ hasNet kcliArgs n, Prepared guest hasNet kcliArgs n log ∧ envs = envsOf (hostnameOf kcliArgs n) kcliArgs := by
  rcases hands with ⟨args,rfl⟩ | rfl
  · obtain ⟨hasNet,kcliArgs,n,ready,_,same⟩ := met.shell args envs rfl
    exact ⟨hasNet,kcliArgs,n,ready,same⟩
  · obtain ⟨hasNet,kcliArgs,n,ready,same⟩ := met.systemd _ rfl
    exact ⟨hasNet,kcliArgs,n,ready,(List.cons.inj same).2⟩

-- A machine with one tap device and a named VM, and its guest.
def sampleFile (path : List UInt8) : Option (List UInt8) :=
  [(lit "/boot/config-6",lit "CONFIG_64BIT=y\nCONFIG_X86_64=y\n"),(lit "net-conf/vm1/hostname",lit "guest.example\n"),
    (lit "/sys/class/net/tap0/tun_flags",lit "0x1002\n"),(lit "initrds/myinitrd",Vm.blockImage)].lookup path

def sampleMachine : Machine where
  cwd := [UnixPath.slash]
  symlinkMetadata := fun _ => .error (.ofKind .notFound)
  fileOpen := fun path =>
    (sampleFile path).elim (.error (.ofKind .notFound)) fun data => .ok (⟨0o100644,0,0,1,0,0,.ofNat data.length⟩,data)
  readDir := fun _ => .ok [lit "tap0.network"]
  readLink := fun _ => .error (.ofKind .notFound)
  canonicalize := fun _ => .error (.ofKind .notFound)
  pathExists := fun _ => false
  cwd_absolute := root_absolute
  readDir_names := by
    rintro _ _ ⟨⟩ n only
    rw [List.mem_singleton.mp only]
    decide +kernel
  canonicalize_absolute := @resolves_nothing
  isFile := fun path => path == lit "/boot/vmlinuz-6"
  stty := none
  alive := fun _ => false
  hasher := fun _ _ => 1
  rapidoConf := .notPresent
  launch := fun _ _ => .ok (.ok true)

def sampleConf : Map := confDefaults.insert "KERNEL_RELEASE".toList "6".toList

def sampleHost : VmHost := vmHost sampleMachine sampleConf (netConfDir "net-conf".toList 1) true

theorem sampleHost_taps : tapsOf sampleHost [lit "tap0.network"] = .ok ["tap0".toList] := by decide +kernel

def sampleBoot : Boot sampleHost where
  console := "ttyS0".toList
  size := none
  hostname := some "guest.example".toList
  taps := ["tap0".toList]
  chosen := by decide +kernel
  fits := nofun
  shown := rfl
  visible := by
    rintro hn ⟨⟩
    exact visible_of_all (by decide)
  named := .inl ⟨"guest.example\n".toList,by decide +kernel,by decide⟩
  valid := by
    intro tap only
    rw [List.mem_singleton.mp only]
    exact ⟨by decide,by decide,by decide,visible_of_all (by decide)⟩
  distinct := by decide
  listed := .inl ⟨rfl,_,rfl,sampleHost_taps⟩
  plain := by decide +kernel

def sampleKcmdline : Str := joined ("rdinit=/rdinit".toList :: bootWords sampleBoot 1)

def sampleGuest : Guest where
  answer := fun _ a => match a with
    | .read _ => .ok {data:=Utf8.encode sampleKcmdline ++ [10]}
    | .symlinkMetadata path => if path = SYSTEMD_BIN_PATH then .error (.ofKind .notFound) else .ok {dir:=true}
    | _ => .ok {}
  iter := fun map => ["tap0".toList].filterMap fun tap => (map tap).map (tap,·)

end Rapido.Handoff

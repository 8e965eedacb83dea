import Rapido.Journal
import Rapido.KcmdlineRoundTrip
import Rapido.VmNumbers
import Rapido.KvAssertion

-- src/bin/rapido-vm.rs: which VM is started, and the command that starts it.
namespace Rapido.VmStart
open Text KvConf Kcmdline UnixPath Cpio Journal

-- QEMU's arguments, as bytes.
structure Command where
  bin : Str
  args : List (List UInt8)
deriving DecidableEq, Repr

-- Command::spawn() and what wait() then returns.
abbrev Launched := Except IoError (Except IoError Bool)

structure Machine extends FileSystem where
  isFile : Path → Bool
  -- stdout of a successful "stty size"
  stty : Option (List UInt8)
  -- the processes under /proc
  alive : Nat → Bool
  hasher : UInt64 → List UInt8 → UInt64
  rapidoConf : Cut.EnvVar
  launch : Log Command Launched → Command → Launched

structure QemuArgs where
  qemuBin : Str
  kernelImg : Str
  console : Str
  params : List Str
deriving DecidableEq, Repr

-- The first of these that is a file.
def firstFile (machine : Machine) (candidates : List Str) : Except IoError Str :=
  match candidates.find? fun p => machine.isFile (Utf8.encode p) with
  | some p => .ok p
  | none => .error (.ofKind .notFound)

def ksKernelImg (machine : Machine) (ksrc : Option Str) (ksRelpath hostPrefix : String) (krel : Option Str) : Except IoError Str :=
  match ksrc with
  | some (c :: ks) => firstFile machine [(c :: ks) ++ '/' :: ksRelpath.toList]
  | _ => match krel with
    | none => .error ⟨.panic,"called `Option::unwrap()` on a `None` value"⟩
    | some krel => firstFile machine ["/boot/".toList ++ hostPrefix.toList ++ '-' :: krel,
        "/usr/lib/modules/".toList ++ krel ++ '/' :: hostPrefix.toList,"/boot/vmlinuz-".toList ++ krel]

-- BufRead::lines().map_while(Result::ok): without their line ends, up to the
-- first line that is not UTF-8.
def linesOk (data : List UInt8) : List Str :=
  (((Cut.festLines [] data).map Utf8.decode).takeWhile Option.isSome).filterMap fun line =>
    line.map fun line => if line.getLast? = some newline then
      (if line.dropLast.getLast? = some '\r' then line.dropLast.dropLast else line.dropLast) else line

def kernelRelease (machine : Machine) (conf : Map) : Except IoError Str :=
  match conf "KERNEL_RELEASE".toList with
  | some rel => .ok rel
  | none => hostKernelVers machine.toFileSystem

def kconfigOpen (machine : Machine) (conf : Map) : Except IoError (List UInt8 × Option Str) :=
  match conf "KERNEL_SRC".toList with
  | some (c :: ks) => do
    let (_,data) ← machine.fileOpen (Utf8.encode ((c :: ks) ++ "/.config".toList))
    return (data,none)
  | _ => do
    let krel ← kernelRelease machine conf
    match machine.fileOpen (Utf8.encode ("/boot/config-".toList ++ krel)) with
    | .ok (_,data) => .ok (data,some krel)
    | .error _ => match machine.fileOpen (Utf8.encode ("/usr/lib/modules/".toList ++ krel ++ "/config".toList)) with
      | .ok (_,data) => .ok (data,some krel)
      | .error e => .error e

-- What a line of the kernel's config says of the architecture: the image below
-- KERNEL_SRC and that of a distribution, QEMU and the parameters it is given.
def archOf (line : Str) : Option (String × String × String × List String) :=
  if line = "CONFIG_X86_64=y".toList then some ("arch/x86/boot/bzImage","vmlinuz","qemu-system-x86_64",[])
  else if line = "CONFIG_ARM64=y".toList then
    some ("arch/arm64/boot/Image","Image","qemu-system-aarch64",["-machine","virt,gic-version=max","-cpu","max"])
  else if line = "CONFIG_PPC64=y".toList then some ("arch/powerpc/boot/zimage","vmlinux","qemu-system-ppc64",[])
  else if line = "CONFIG_S390=y".toList then some ("arch/s390/boot/bzImage","bzImage","qemu-system-s390x",[])
  else none

def kvmParams (machine : Machine) : List Str :=
  match machine.symlinkMetadata (Utf8.encode "/dev/kvm".toList) with
  | .ok md => if md.mode &&& S_IFMT = S_IFCHR then ["-machine".toList,"accel=kvm".toList] else []
  | .error _ => []

def vmQemuArgsGet (machine : Machine) (conf : Map) : Except IoError QemuArgs := do
  let (kconfig,krel) ← kconfigOpen machine conf
  match (linesOk kconfig).findSome? fun line => (archOf line).map (line,·) with
  | none => .error (.ofKind .unsupported)
  | some (line,ksRelpath,hostPrefix,qemuBin,params) => do
    let kernelImg ← ksKernelImg machine (conf "KERNEL_SRC".toList) ksRelpath hostPrefix krel
    return ⟨qemuBin.toList,kernelImg,(consoleOf line).getD [],kvmParams machine ++ params.map String.toList⟩

-- fs::read_to_string
def readToString (fs : FileSystem) (path : Path) : Except IoError Str := do
  let (_,data) ← fs.fileOpen path
  match Utf8.decode data with
  | some text => .ok text
  | none => .error ⟨.invalidData,"stream did not contain valid UTF-8"⟩

def vmNetConf (conf : Map) : Except IoError Str :=
  match conf "VM_NET_CONF".toList with
  | some dir => .ok dir
  | none => .error ⟨.panic,"VM_NET_CONF not set"⟩

def netConfDir (dir : Str) (vmNum : UInt64) : Str := dir ++ "/vm".toList ++ dec vmNum.toNat

-- What vm_start finds on this machine, with the net resource of the image.
def vmHost (machine : Machine) (conf : Map) (netDir : Str) (net : Bool) : VmHost where
  kconfig := ((kconfigOpen machine conf).toOption.map fun file => linesOk file.1).getD []
  stty := machine.stty
  hostname := readToString machine.toFileSystem (Utf8.encode (netDir ++ "/hostname".toList))
  netConf := machine.readDir (Utf8.encode netDir)
  tunFlags := fun tap => (machine.fileOpen (Utf8.encode ("/sys/class/net/".toList ++ tap ++ "/tun_flags".toList))).map (·.2)
  net := net
  hasher := machine.hasher
  qemuExtraKernelParams := conf "QEMU_EXTRA_KERNEL_PARAMS".toList

def imageResources (machine : Machine) (initramfsImg : Str) : Except IoError Vm.VmResources := do
  let (_,img) ← machine.fileOpen (Utf8.encode initramfsImg)
  (Vm.vmResourcesGet img).getD (.error (.ofKind .outOfFuel))

-- The two parameters for each tap device.
def tapParams (host : VmHost) (vmNum : UInt64) (vmTap : Str) (i : Nat) : List Str := ["-device".toList,
  "virtio-net,netdev=if".toList ++ dec i ++ ",mac=".toList ++ vmMacGen host vmNum vmTap ++ ",romfile=".toList,
  "-netdev".toList,"tap,id=if".toList ++ dec i ++ ",script=no,downscript=no,ifname=".toList ++ vmTap]

def netParamsStash (host : VmHost) (vmNum : UInt64) : Except IoError (List Str) :=
  if host.net then do
    let entries ← host.netConf
    let taps ← tapsOf host entries
    return taps.zipIdx.flatMap fun (vmTap,i) => tapParams host vmNum vmTap i
  else .ok []

def smp (cpus : UInt32) : Str := dec cpus.toNat ++ ",sockets=".toList ++ dec cpus.toNat ++ ",cores=1,threads=1".toList

def virtfsParams (conf : Map) : List Str :=
  match conf "VIRTFS_SHARE_PATH".toList with
  | some vsp => ["-virtfs".toList,"local,path=".toList ++ vsp ++ ",mount_tag=host0,security_model=mapped,id=host0".toList]
  | none => []

def extraArgs (conf : Map) : List Str :=
  match conf "QEMU_EXTRA_ARGS".toList with
  | some qea => qea.splitOnP fun c => c == ' ' || c == newline
  | none => []

def bootParams (qemuArgs : QemuArgs) (rscs : Vm.VmResources) (vmPidFile initramfsImg : Str) : List (List UInt8) :=
  qemuArgs.params.map Utf8.encode ++
    [Utf8.encode "-smp".toList,Utf8.encode (smp rscs.cpus),Utf8.encode "-m".toList,rscs.mem,
      Utf8.encode "-kernel".toList,Utf8.encode qemuArgs.kernelImg,Utf8.encode "-initrd".toList,Utf8.encode initramfsImg,
      Utf8.encode "-pidfile".toList,Utf8.encode vmPidFile] ++
    if rscs.net then [] else [Utf8.encode "-net".toList,Utf8.encode "none".toList]

-- Everything that vm_start does before it spawns QEMU.
def vmCommand (machine : Machine) (conf : Map) (vmNum : UInt64) (vmPidFile initramfsImg : Str) : Except IoError Command := do
  let qemuArgs ← vmQemuArgsGet machine conf
  let dir ← vmNetConf conf
  let netDir := netConfDir dir vmNum
  let _ ← hostnameParam (vmHost machine conf netDir false)
  let rscs ← imageResources machine initramfsImg
  let host := vmHost machine conf netDir rscs.net
  let stash ← netParamsStash host vmNum
  let kcmdline ← vmKcmdline host vmNum
  return ⟨qemuArgs.qemuBin,bootParams qemuArgs rscs vmPidFile initramfsImg ++
    [Utf8.encode "-append".toList,Utf8.encode kcmdline] ++ (virtfsParams conf ++ extraArgs conf ++ stash).map Utf8.encode⟩

abbrev Start := Eff IoError (Log Command Launched)

def vmStart (machine : Machine) (conf : Map) (vmNum : UInt64) (vmPidFile initramfsImg : Str) : Start Unit := do
  let command ← Eff.ofExcept (vmCommand machine conf vmNum vmPidFile initramfsImg)
  match ← perform machine.launch command with
  | .error e => .fail e
  | .ok (.error _) => .fail (.ofKind .brokenPipe)
  | .ok (.ok _) => pure ()

def confGet (machine : Machine) : Except IoError Map :=
  match Cut.hostRapidoConfOpen machine.toFileSystem machine.rapidoConf Cut.RAPIDO_CONF_PATH with
  | .error e => if e.kind = .notFound then .ok confDefaults else .error e
  | .ok (file,_) => match Cut.kvConfFileAppend file.2 confDefaults with
    | (.error e,_) => .error e
    | (.ok (),conf) => .ok conf

def pidPath (pidDir : Str) (vmNum : Nat) : Str := pidDir ++ "/rapido_vm".toList ++ dec vmNum ++ ".pid".toList

def pidFiles (machine : Machine) (pidDir : Str) : VmNumbers.Shared where
  pidFile := fun vmNum => (machine.fileOpen (Utf8.encode (pidPath pidDir vmNum))).map (·.2)
  alive := machine.alive

-- The loop of main over the numbers that are left.
def startFirst (machine : Machine) (conf : Map) (pidDir initramfsImg : Str) : List Nat → Start Unit
  | [] => pure ()
  | vmNum :: rest => do
    if ← Eff.ofExcept (VmNumbers.vmIsRunning (pidFiles machine pidDir) vmNum) then startFirst machine conf pidDir initramfsImg rest
    else vmStart machine conf (.ofNat vmNum) (pidPath pidDir vmNum) initramfsImg

def unwrapKey (conf : Map) (key : String) : Start Str :=
  match conf key.toList with
  | some value => pure value
  | none => .fail ⟨.panic,"called `Option::unwrap()` on a `None` value"⟩

def main (machine : Machine) : Start Unit := do
  let conf ← Eff.ofExcept (confGet machine)
  let pidDir ← unwrapKey conf "QEMU_PID_DIR"
  let initramfsImg ← unwrapKey conf "DRACUT_OUT"
  startFirst machine conf pidDir initramfsImg (List.range' 1 999)

variable {machine : Machine} {conf : Map} {pidDir img : Str}

-- vm_start spawns nothing, or QEMU once.
theorem vmStart_log (machine : Machine) (conf : Map) (vmNum : UInt64) (vmPidFile img : Str) (log : Log Command Launched) :
    ((vmStart machine conf vmNum vmPidFile img).run log).2 = log ∨
    ∃ command, vmCommand machine conf vmNum vmPidFile img = .ok command ∧
      ((vmStart machine conf vmNum vmPidFile img).run log).2 = log ++ [(command,machine.launch log command)] := by
  unfold vmStart
  cases made : vmCommand machine conf vmNum vmPidFile img with
  | error e => exact .inl rfl
  | ok command =>
    refine .inr ⟨command,rfl,?_⟩
    have performed : (perform machine.launch command : Start Launched).run log =
      (.ok (machine.launch log command),log ++ [(command,machine.launch log command)]) := perform_run ..
    rw [Eff.ofExcept_ok,Eff.pure_bind_run,Eff.bind_run_ok performed]
    cases machine.launch log command with
    | error e => rfl
    | ok waited =>
      cases waited with
      | error e => rfl
      | ok status => rfl

-- The number that is taken is the first of those whose VM does not run.
structure Taken (machine : Machine) (pidDir : Str) (nums : List Nat) (n : Nat) : Prop where
  first : ∃ front back, nums = front ++ n :: back ∧ ∀ m ∈ front, VmNumbers.vmIsRunning (pidFiles machine pidDir) m = .ok true
  free : VmNumbers.vmIsRunning (pidFiles machine pidDir) n = .ok false

theorem startFirst_log (nums : List Nat) (log : Log Command Launched) :
    ((startFirst machine conf pidDir img nums).run log).2 = log ∨
    ∃ n command, Taken machine pidDir nums n ∧ vmCommand machine conf (.ofNat n) (pidPath pidDir n) img = .ok command ∧
      ((startFirst machine conf pidDir img nums).run log).2 = log ++ [(command,machine.launch log command)] := by
  induction nums with
  | nil => exact .inl rfl
  | cons n rest ih =>
    unfold startFirst
    cases checked : VmNumbers.vmIsRunning (pidFiles machine pidDir) n with
    | error e => exact .inl rfl
    | ok running =>
      cases running with
      | false =>
        rcases vmStart_log machine conf (.ofNat n) (pidPath pidDir n) img log with none | ⟨command,made,logged⟩
        · exact .inl none
        · exact .inr ⟨n,command,⟨⟨[],rest,rfl,nofun⟩,checked⟩,made,logged⟩
      | true =>
        rcases ih with none | ⟨m,command,⟨⟨front,back,rfl,lower⟩,free⟩,made,logged⟩
        · exact .inl none
        · exact .inr ⟨m,command,⟨⟨n :: front,back,rfl,List.forall_mem_cons.mpr ⟨checked,lower⟩⟩,free⟩,made,logged⟩

theorem range_split (split : List.range' 1 999 = front ++ n :: back) : 1 ≤ n ∧ n < 1000 ∧ ∀ m, 1 ≤ m → m < n → m ∈ front := by
  obtain ⟨k,_,lower,rest⟩ := List.range'_eq_append_iff.mp split
  obtain ⟨same,some,_⟩ := List.range'_eq_cons_iff.mp rest.symm
  refine ⟨by omega,by omega,fun m one below => ?_⟩
  rw [lower]
  exact List.mem_range'_1.mpr ⟨one,by omega⟩

theorem unwrapKey_run (known : conf key.toList = some value) (log : Log Command Launched) :
    (unwrapKey conf key).run log = (.ok value,log) := by
  unfold unwrapKey
  rw [known]
  rfl

-- The keys that have defaults are set, whatever rapido.conf says.
theorem confGet_defaults (read : confGet machine = .ok conf) (default : (confDefaults key).isSome = true) : (conf key).isSome = true := by
  unfold confGet at read
  split at read
  · split at read
    · cases read
      exact default
    · cases read
  · split at read
    · cases read
    · rename_i accepted
      cases read
      exact Cut.append_keeps _ _ _ _ default accepted

theorem main_body (read : confGet machine = .ok conf) : ∃ pidDir img, conf "QEMU_PID_DIR".toList = some pidDir ∧
    conf "DRACUT_OUT".toList = some img ∧
    ∀ log, (main machine).run log = (startFirst machine conf pidDir img (List.range' 1 999)).run log := by
  obtain ⟨pidDir,pids⟩ := Option.isSome_iff_exists.mp (confGet_defaults read (show (confDefaults "QEMU_PID_DIR".toList).isSome = true by decide))
  obtain ⟨img,out⟩ := Option.isSome_iff_exists.mp (confGet_defaults read (show (confDefaults "DRACUT_OUT".toList).isSome = true by decide))
  refine ⟨pidDir,img,pids,out,fun log => ?_⟩
  unfold main
  rw [read,Eff.ofExcept_ok,Eff.pure_bind_run,Eff.bind_run_ok (unwrapKey_run pids log),Eff.bind_run_ok (unwrapKey_run out log)]

theorem main_taken (read : confGet machine = .ok conf) : ∃ pidDir img, conf "QEMU_PID_DIR".toList = some pidDir ∧
    conf "DRACUT_OUT".toList = some img ∧ (((main machine).run []).2 = [] ∨
      ∃ n command, Taken machine pidDir (List.range' 1 999) n ∧ vmCommand machine conf (.ofNat n) (pidPath pidDir n) img = .ok command ∧
        ((main machine).run []).2 = [(command,machine.launch [] command)]) := by
  obtain ⟨pidDir,img,pids,out,body⟩ := main_body read
  refine ⟨pidDir,img,pids,out,?_⟩
  rw [body]
  exact startFirst_log (List.range' 1 999) []

theorem started_made (read : confGet machine = .ok conf) (started : (command,launched) ∈ ((main machine).run []).2) :
    ∃ vmNum vmPidFile img, conf "DRACUT_OUT".toList = some img ∧ vmCommand machine conf vmNum vmPidFile img = .ok command := by
  obtain ⟨pidDir,img,_,out,none | ⟨n,other,_,made,logged⟩⟩ := main_taken read
  · rw [none] at started
    cases started
  · rw [logged] at started
    cases List.mem_singleton.mp started
    exact ⟨_,_,img,out,made⟩

-- A run of rapido-vm starts no VM, or one: that with the lowest number of which
-- none is running, from the image that rapido.conf names.
theorem main_starts (machine : Machine) : ((main machine).run []).2 = [] ∨
    ∃ conf pidDir img n command, confGet machine = .ok conf ∧ conf "QEMU_PID_DIR".toList = some pidDir ∧
      conf "DRACUT_OUT".toList = some img ∧ 1 ≤ n ∧ n < 1000 ∧
      (∀ m, 1 ≤ m → m < n → VmNumbers.vmIsRunning (pidFiles machine pidDir) m = .ok true) ∧
      VmNumbers.vmIsRunning (pidFiles machine pidDir) n = .ok false ∧
      vmCommand machine conf (.ofNat n) (pidPath pidDir n) img = .ok command ∧
      ((main machine).run []).2 = [(command,machine.launch [] command)] := by
  cases read : confGet machine with
  | error e =>
    left
    unfold main
    rw [read]
    rfl
  | ok conf =>
    obtain ⟨pidDir,img,pids,out,none | ⟨n,command,⟨⟨front,back,split,lower⟩,free⟩,made,logged⟩⟩ := main_taken read
    · exact .inl none
    · obtain ⟨one,limit,all⟩ := range_split split
      exact .inr ⟨conf,pidDir,img,n,command,rfl,pids,out,one,limit,fun m positive below => lower m (all m positive below),free,made,logged⟩

end Rapido.VmStart

import Rapido.Journal
import Rapido.Kcmdline
import Rapido.KvAssertion

-- src/bin/rapido-init.rs: what the first process of a guest does, and when.
namespace Rapido.GuestInit
open Text KvConf Kcmdline Journal

def lit (s : String) : List UInt8 := Utf8.encode s.toList

-- What rapido-init asks of the kernel and of other programs.
inductive Action where
  | openConf
  | symlinkMetadata (path : List UInt8)
  | createDirAll (path : List UInt8)
  | symlink (original link : List UInt8)
  | write (path contents : List UInt8)
  -- OpenOptions::new().write(true).append(true).create(create), and write! on it
  | openAppend (path : List UInt8) (create : Bool)
  | append (path text : List UInt8)
  | read (path : List UInt8)
  | readDir (path : List UInt8)
  -- Command::status()
  | command (program : List UInt8) (args : List (List UInt8)) (envs : List (String × List UInt8))
  | spawn (program : List UInt8) (args : List (List UInt8)) (envs : List (String × List UInt8))
  | wait
  | exec (program : List UInt8) (envs : List (String × List UInt8))
deriving DecidableEq, Repr

-- What can be answered, of which an action reads its own part.
structure Reply where
  success : Bool := true
  dir : Bool := false
  data : List UInt8 := []
  entries : List (List UInt8) := []
deriving DecidableEq, Repr

abbrev Outcome := Except IoError Reply

-- How a run stops: an Err that is passed on, a panic, or execve.
inductive Stop where
  | error (e : IoError)
  | panic (msg : String)
  | replaced
deriving DecidableEq, Repr

-- The machine, and the order in which a HashMap is iterated over.
structure Guest where
  answer : Log Action Outcome → Action → Outcome
  iter : Map → List (Str × Str)

abbrev Boot := Eff Stop (Log Action Outcome)

def ask (guest : Guest) (a : Action) : Boot Outcome := perform guest.answer a

-- The ? operator.
def must (guest : Guest) (a : Action) : Boot Reply := do
  match ← ask guest a with
  | .ok reply => pure reply
  | .error e => .fail (.error e)

def expect (guest : Guest) (a : Action) (msg : String) : Boot Reply := do
  match ← ask guest a with
  | .ok reply => pure reply
  | .error _ => .fail (.panic msg)

def brokenPipe : Stop := .error (.ofKind .brokenPipe)

-- A command that has to be there and has to succeed.
def runCommand (guest : Guest) (program : List UInt8) (args : List (List UInt8)) (msg : String) : Boot Unit := do
  let status ← expect guest (.command program args []) msg
  Eff.runIf (status.success = false) (.fail brokenPipe)

def mounts : List (List (List UInt8)) := [["-t","proc","-o","nosuid,noexec,nodev","proc","/proc"],
  ["-t","sysfs","-o","nosuid,noexec,nodev","sysfs","/sys"],
  ["-t","devtmpfs","-o","nosuid,noexec","devtmpfs","/dev"],
  ["-t","devpts","-o","nosuid,noexec","devpts","/dev/pts"],
  ["-t","tmpfs","-o","noexec,nosuid,nodev","tmpfs","/tmp"]].map (·.map lit)

def debugfsArgs : List (List UInt8) := ["-t","debugfs","debugfs","/sys/kernel/debug/"].map lit
def hostArgs : List (List UInt8) := ["-t","9p","host0","/host"].map lit

def mountOne (guest : Guest) (args : List (List UInt8)) : Boot Unit := do
  let _ ← must guest (.createDirAll (args.getLastD []))
  runCommand guest (lit "mount") args "failed to execute mount command"

def initMount (guest : Guest) (doDebugfs : Bool) : Boot Unit := do
  Eff.forEach (mountOne guest) mounts
  Eff.runIf (doDebugfs = true) (do
    let _ ← expect guest (.command (lit "mount") debugfsArgs []) "failed to execute mount command")
  let _ ← ask guest (.symlink (lit "/proc/self/fd") (lit "/dev/fd"))

def BIN_PATH : List UInt8 := lit "/usr/sbin:/usr/bin:/sbin:/bin"

def kmodsLoad (guest : Guest) (kmods : List Str) : Boot Unit :=
  Eff.runIf (kmods.length > 0) (do
    match ← ask guest (.command (lit "modprobe") (lit "-a" :: kmods.map Utf8.encode) [("PATH",BIN_PATH)]) with
    | .error _ => .fail brokenPipe
    | .ok status => Eff.runIf (status.success = false) (.fail brokenPipe))

def unwrapVmNum (kcliArgs : KcliArgs) : Boot Str :=
  match kcliArgs.rapidoVmNum with
  | some n => pure n
  | none => .fail (.panic "called `Option::unwrap()` on a `None` value")

def chooseHostname (guest : Guest) (kcliArgs : KcliArgs) : Boot Str :=
  match kcliArgs.rapidoHostname with
  | none => do
    let n ← unwrapVmNum kcliArgs
    return "rapido".toList ++ n
  | some hd => match splitOnce '.' hd with
    | some (h,d) => do
      let _ ← must guest (.write (lit "/proc/sys/kernel/domainname") (Utf8.encode d))
      return h
    | none => pure hd

def initHostname (guest : Guest) (kcliArgs : KcliArgs) : Boot Str := do
  let hostname ← chooseHostname guest kcliArgs
  let _ ← must guest (.write (lit "/proc/sys/kernel/hostname") (Utf8.encode hostname))
  return hostname

def vmNetdir (n : Str) : List UInt8 := lit "/rapido-rsc/net/vm" ++ Utf8.encode n
def tapNetwork (n tap : Str) : List UInt8 := vmNetdir n ++ lit "/" ++ Utf8.encode tap ++ lit ".network"
def macMatch (mac : Str) : List UInt8 := lit "\n[Match]\nMACAddress=" ++ Utf8.encode mac
def loNetwork : List UInt8 := lit "/etc/systemd/network/lo.network"
def passwd : List UInt8 := lit "/etc/passwd"

-- A tap without a .network file of its own is left alone.
def macAppend (guest : Guest) (n tap mac : Str) : Boot Unit := do
  match ← ask guest (.openAppend (tapNetwork n tap) false) with
  | .error _ => pure ()
  | .ok _ => do
    let _ ← must guest (.append (tapNetwork n tap) (macMatch mac))

def createAppend (guest : Guest) (path text : List UInt8) : Boot Unit := do
  let _ ← must guest (.openAppend path true)
  let _ ← must guest (.append path text)

def initNetConf (guest : Guest) (kcliArgs : KcliArgs) : Boot Unit := do
  let n ← unwrapVmNum kcliArgs
  let _ ← must guest (.symlink (vmNetdir n) (lit "/etc/systemd/network"))
  Eff.forEach (fun pair => macAppend guest n pair.1 pair.2) ((kcliArgs.rapidoTapMac.map guest.iter).getD [])
  createAppend guest loNetwork (lit "[Match]\nName=lo")
  createAppend guest passwd (lit "systemd-network:x:482:482:systemd Network Management:/:/sbin/nologin\n")

def writeMachineId (guest : Guest) (systemdMachineId : Option Str) : Boot Unit :=
  match systemdMachineId with
  | none => .fail (.error (.ofKind .invalidInput))
  | some mid => do
    let _ ← must guest (.write (lit "/etc/machine-id") (Utf8.encode mid))

def initNetService (guest : Guest) (systemdMachineId : Option Str) : Boot Unit := do
  writeMachineId guest systemdMachineId
  runCommand guest (lit "/usr/lib/systemd/systemd-udevd") [lit "--daemon"] "failed to execute systemd-udevd"
  let net ← must guest (.readDir (lit "/sys/class/net/"))
  runCommand guest (lit "udevadm") (lit "trigger" :: net.entries) "failed to execute udevadm"
  runCommand guest (lit "setsid") [lit "--fork",lit "/usr/lib/systemd/systemd-networkd"]
    "failed to execute systemd-networkd via setsid"
  runCommand guest (lit "/usr/lib/systemd/systemd-networkd-wait-online") [lit "--timeout=20"]
    "failed to execute systemd-networkd-wait-online"

def SYSTEMD_BIN_PATH : List UInt8 := lit "/usr/lib/systemd/systemd"

def initExecSystemd (guest : Guest) (envs : List (String × List UInt8)) : Boot Unit := do
  match ← ask guest (.exec SYSTEMD_BIN_PATH (("DRACUT_SYSTEMD",lit "1") :: envs)) with
  | .ok _ => .fail .replaced
  | .error _ => .fail (.panic "systemd failed to start")

def shellArgs : List (List UInt8) := ["--ctty","--","bash","--rcfile","/rapido.rc","-i"].map lit

def initShell (guest : Guest) (envs : List (String × List UInt8)) : Boot Unit := do
  let _ ← expect guest (.spawn (lit "setsid") shellArgs envs) "failed to execute bash via setsid"
  match ← ask guest .wait with
  | .error _ => .fail brokenPipe
  | .ok _ => pure ()

def sysrq : Action := .write (lit "/proc/sys/kernel/sysrq") (lit "1\n")
def sysrqTrigger : Action := .write (lit "/proc/sysrq-trigger") (lit "o\n")

-- The twenty seconds that are slept afterwards are left out.
def initShutdown (guest : Guest) : Boot Unit := do
  let _ ← must guest sysrq
  let _ ← must guest sysrqTrigger

-- Panics of kv_conf_process are panics of init_main.
def stopOf (e : IoError) : Stop := if e.kind = .panic then .panic e.msg else .error e

def confRead (guest : Guest) : Boot Map := do
  let file ← must guest .openConf
  match Cut.kvConfFileAppend file.data .empty with
  | (.ok (),conf) => pure conf
  | (.error e,_) => .fail (stopOf e)

def statDir (outcome : Outcome) : Bool := match outcome with
  | .ok md => md.dir
  | .error _ => false

def statFile (outcome : Outcome) : Bool := match outcome with
  | .ok md => !md.dir
  | .error _ => false

def envsOf (hostname : Str) (kcliArgs : KcliArgs) : List (String × List UInt8) := [("HOSTNAME",Utf8.encode hostname),
  ("PATH",BIN_PATH),("PS1",Utf8.encode (hostname ++ ":$\x7bPWD\x7d# ".toList)),("RAPIDO_INIT",lit "0.1"),
  ("STTY_RC",Utf8.encode (kcliArgs.sttyRc.getD [])),("TERM",lit "linux")]

def kmodsOf (conf : Map) (hasNet : Bool) : List Str :=
  confKmodDeps conf ++ if hasNet then ["virtio_net".toList,"af_packet".toList] else []

def kcliRead (guest : Guest) : Boot KcliArgs := do
  let kcmdline ← must guest (.read (lit "/proc/cmdline"))
  match kcliParse kcmdline.data with
  | .ok kcliArgs => pure kcliArgs
  | .error e => .fail (.error e)

def mountHost (guest : Guest) : Boot Unit := do
  let _ ← must guest (.createDirAll (lit "/host"))
  let _ ← expect guest (.command (lit "mount") hostArgs []) "failed to execute mount command"

def initStart (guest : Guest) (hasNet hasSystemd : Bool) (kcliArgs : KcliArgs) (hostname : Str) : Boot Unit :=
  if hasSystemd then initExecSystemd guest (envsOf hostname kcliArgs)
  else do
    Eff.runIf (hasNet = true) (initNetService guest kcliArgs.systemdMachineId)
    initShell guest (envsOf hostname kcliArgs)

-- init_main from where the kernel command line is known.
def initTold (guest : Guest) (hasNet hasSystemd : Bool) (kcliArgs : KcliArgs) : Boot Unit := do
  Eff.runIf (kcliArgs.rapidoVmNum = none) (.fail (.error (.ofKind .invalidInput)))
  let hostname ← initHostname guest kcliArgs
  Eff.runIf (hasNet = true) (initNetConf guest kcliArgs)
  initStart guest hasNet hasSystemd kcliArgs hostname

def initMain (guest : Guest) : Boot Unit := do
  let conf ← confRead guest
  let hasNet ← statDir <$> ask guest (.symlinkMetadata (lit "/rapido-rsc/net"))
  let hasDynDebug := (conf "DYN_DEBUG_MODULES".toList).isSome || (conf "DYN_DEBUG_FILES".toList).isSome
  let hasVirtfs := (conf "VIRTFS_SHARE_PATH".toList).isSome
  let hasSystemd ← statFile <$> ask guest (.symlinkMetadata SYSTEMD_BIN_PATH)
  initMount guest hasDynDebug
  kmodsLoad guest (kmodsOf conf hasNet)
  Eff.runIf (hasVirtfs = true) (mountHost guest)
  let kcliArgs ← kcliRead guest
  initTold guest hasNet hasSystemd kcliArgs

-- The machine is powered off whatever came of init_main, unless it never returns.
def main (guest : Guest) : Boot Unit := do
  match ← Eff.attempt (initMain guest) with
  | .error (.panic msg) => .fail (.panic msg)
  | .error .replaced => .fail .replaced
  | .error (.error _) | .ok () => do
    let _ ← Eff.attempt (initShutdown guest)

end Rapido.GuestInit

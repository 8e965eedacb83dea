import Rapido.KvConf
import Rapido.Radix
import Rapido.UnixPath
import Rapido.Utf8

-- The kernel command line: built by vm_start of src/bin/rapido-vm.rs, read by
-- kcli_parse of src/bin/rapido-init.rs.
namespace Rapido.Kcmdline
open Text KvConf

-- What vm_start finds on the host.
structure VmHost where
  -- the lines of the kernel's config
  kconfig : List Str
  -- stdout of a successful "stty size"
  stty : Option (List UInt8)
  -- fs::read_to_string of vmN/hostname and fs::read_dir of vmN, the names of its entries
  hostname : Except IoError Str
  netConf : Except IoError (List (List UInt8))
  -- fs::read of /sys/class/net/<tap>/tun_flags
  tunFlags : Str → Except IoError (List UInt8)
  -- the net resource of the initramfs
  net : Bool
  -- DefaultHasher after write_u64 and write
  hasher : UInt64 → List UInt8 → UInt64
  qemuExtraKernelParams : Option Str

-- vm_qemu_args_get goes by the first line that names an architecture.
def consoleOf (line : Str) : Option Str :=
  if line = "CONFIG_X86_64=y".toList then some "ttyS0".toList
  else if line = "CONFIG_ARM64=y".toList then some "ttyAMA0".toList
  else if line = "CONFIG_PPC64=y".toList then some "hvc0".toList
  else if line = "CONFIG_S390=y".toList then some "ttysclp0".toList
  else none

def qemuConsole (host : VmHost) : Except IoError Str :=
  match host.kconfig.findSome? consoleOf with
  | some console => .ok console
  | none => .error (.ofKind .unsupported)

def dec (n : Nat) : Str := Nat.toDigits 10 n
-- {:0wx}
def hex (width n : Nat) : Str := List.leftpad width '0' (Nat.toDigits 16 n)

def vmMacGen (host : VmHost) (vmNum : UInt64) (vmTap : Str) : Str :=
  let h := (host.hasher vmNum (Utf8.encode vmTap)).toNat
  "b8:".toList ++ hex 2 (h % 256) ++ ':' :: hex 2 (h / 2^8 % 256) ++ ':' :: hex 2 (h / 2^16 % 256) ++
    ':' :: hex 2 (h / 2^24 % 256) ++ ':' :: hex 2 (h / 2^32 % 256)

def isDigit (b : UInt8) : Bool := 48 ≤ b && b ≤ 57

def hostSttySize (host : VmHost) (kcmdline : Str) (kparam : Str) : Str :=
  match host.stty with
  | none => kcmdline
  | some out => match out.splitOnP (fun b => !isDigit b) with
    | rows :: cols :: _ =>
      if rows.length < 1 ∨ cols.length < 1 then kcmdline
      else kcmdline ++ kparam ++ rows.map (fun b => Char.ofNat b.toNat) ++ ',' :: cols.map fun b => Char.ofNat b.toNat
    | _ => kcmdline

def IFF_TAP : Nat := 0x02

-- None where the loop over the entries goes on with the next one.
def tapOf (host : VmHost) (entry : List UInt8) : Except IoError (Option Str) :=
  if UnixPath.extension entry ≠ some (Utf8.encode "network".toList) then .ok none
  else match (UnixPath.fileStem entry).bind Utf8.decode with
    | none => .ok none
    | some vmTap => match host.tunFlags vmTap with
      | .error _ => .ok none
      | .ok flags => match Utf8.decode flags with
        | none => .ok none
        | some flagsStr =>
          if "0x".toList <+: flagsStr then
            match Radix.fromStrRadix 16 (2^64) (Utf8.encode (trimEnd (flagsStr.drop 2))) with
            | none => .error (.ofKind .invalidData)
            | some flagsVal => .ok (if flagsVal &&& IFF_TAP ≠ IFF_TAP then none else some vmTap)
          else .error (.ofKind .invalidData)

def tapsOf (host : VmHost) : List (List UInt8) → Except IoError (List Str)
  | [] => .ok []
  | entry :: rest => do
    let tap ← tapOf host entry
    let taps ← tapsOf host rest
    return tap.toList ++ taps

def netParams (host : VmHost) (vmNum : UInt64) : Except IoError Str :=
  if host.net then do
    let entries ← host.netConf
    let taps ← tapsOf host entries
    return " net.ifnames=0".toList ++
      taps.flatMap fun vmTap => " rapido.mac.".toList ++ vmTap ++ '=' :: vmMacGen host vmNum vmTap
  else .ok []

def hostnameParam (host : VmHost) : Except IoError Str :=
  match host.hostname with
  | .error e => if e.kind = .notFound then .ok [] else .error e
  | .ok hn => .ok (" rapido.hostname=".toList ++ trimEnd hn)

-- The -append argument of vm_start.
def vmKcmdline (host : VmHost) (vmNum : UInt64) : Except IoError Str := do
  let console ← qemuConsole host
  let base := "rdinit=/rdinit console=".toList ++ console ++ " rapido.vm_num=".toList ++ dec vmNum.toNat ++
    " systemd.machine_id=".toList ++ hex 32 vmNum.toNat
  let base := hostSttySize host base " rapido.stty=".toList
  let hostname ← hostnameParam host
  let net ← netParams host vmNum
  let extra := match host.qemuExtraKernelParams with
    | some kp => ' ' :: kp
    | none => []
  return base ++ hostname ++ net ++ extra

structure KcliArgs where
  rapidoHostname : Option Str := none
  rapidoVmNum : Option Str := none
  rapidoTapMac : Option Map := none
  sttyRc : Option Str := none
  systemdMachineId : Option Str := none
  console : Option Str := none

-- A slice pattern that starts with the bytes of a key.
def stripKey : List UInt8 → List UInt8 → Option (List UInt8)
  | [],w => some w
  | _ :: _,[] => none
  | k :: key,b :: w => if k = b then stripKey key w else none

def after (key : String) (w : List UInt8) : Option (List UInt8) := stripKey (Utf8.encode key.toList) w

def fromUtf8 (val : List UInt8) : Except IoError Str :=
  match Utf8.decode val with
  | none => .error (.ofKind .invalidData)
  | some s => .ok s

def parsesU32 (s : Str) : Bool := (Radix.fromStrRadix 10 (2^32) (Utf8.encode s)).isSome

def tapMac (args : KcliArgs) (kv : List UInt8) : Except IoError KcliArgs :=
  match fromUtf8 kv with
  | .error e => .error e
  | .ok s => match splitOnce '=' s with
    | none => .error (.ofKind .invalidData)
    | some (tap,mac) => .ok {args with rapidoTapMac:=some ((args.rapidoTapMac.getD .empty).insert tap mac)}

def sttyRowsCols (args : KcliArgs) (rowsCols : List UInt8) : Except IoError KcliArgs :=
  match fromUtf8 rowsCols with
  | .error e => .error e
  | .ok s => match splitOnce ',' s with
    | none => .error (.ofKind .invalidData)
    | some (r,c) => if parsesU32 r && parsesU32 c then .ok {args with sttyRc:=some s} else .error (.ofKind .invalidData)

def kcliWord (args : KcliArgs) (w : List UInt8) : Except IoError KcliArgs :=
  match after "rapido.hostname=" w with
  | some val => (fromUtf8 val).map fun s => {args with rapidoHostname:=some s}
  | none => match after "rapido.vm_num=" w with
    | some val => (fromUtf8 val).map fun s => {args with rapidoVmNum:=some s}
    | none => match after "rapido.mac." w with
      | some kv => tapMac args kv
      | none => match after "rapido.stty=" w with
        | some rowsCols => sttyRowsCols args rowsCols
        | none => match after "systemd.machine_id=" w with
          | some val => (fromUtf8 val).map fun s => {args with systemdMachineId:=some s}
          | none => match after "console=" w with
            | some val => (fromUtf8 val).map fun s => {args with console:=some s}
            | none => .ok args

def kcliWords (args : KcliArgs) : List (List UInt8) → Except IoError KcliArgs
  | [] => .ok args
  | w :: rest => match kcliWord args w with
    | .error e => .error e
    | .ok args => kcliWords args rest

def separates (b : UInt8) : Bool := b == 32 || b == 10

def kcliParse (kcmdline : List UInt8) : Except IoError KcliArgs := kcliWords {} (kcmdline.splitOnP separates)

end Rapido.Kcmdline

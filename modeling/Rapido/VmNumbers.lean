import Rapido.Io
import Rapido.Radix
import Rapido.Text
import Rapido.Utf8
import Mathlib.Logic.Relation

-- How main of src/bin/rapido-vm.rs chooses a VM number, with any number of
-- rapido-vm processes at work on one QEMU_PID_DIR.
namespace Rapido.VmNumbers
open Text

-- What the processes share.
structure Shared where
  -- fs::File::open of rapido_vmN.pid with the file's bytes
  pidFile : Nat → Except IoError (List UInt8)
  alive : Nat → Bool

-- BufRead::read_line into an empty String: the number of bytes read and the line.
def readLine (data : List UInt8) : Except IoError (Nat × Str) :=
  let bytes := data.take (data.idxOf 10 + 1)
  match Utf8.decode bytes with
  | none => .error ⟨.invalidData,"stream did not contain valid UTF-8"⟩
  | some line => .ok (bytes.length,line)

def parsePid (pid : Str) : Option Nat := Radix.fromStrRadix 10 (2^64) (Utf8.encode pid)

-- fs::symlink_metadata of /proc/<pid>: the kernel knows a pid by its plain decimals only.
def procExists (alive : Nat → Bool) (pid : Str) : Bool :=
  match parsePid pid with
  | none => false
  | some n => alive n && Nat.toDigits 10 n == pid

def vmIsRunning (shared : Shared) (vmNum : Nat) : Except IoError Bool :=
  match shared.pidFile vmNum with
  | .error e => if e.kind = .notFound then .ok false else .error e
  | .ok data => match readLine data with
    | .error e => .error e
    | .ok (n,line) =>
      if n < 1 ∨ 16 < n ∨ parsePid (trimEnd line) = none then .error (.ofKind .invalidInput)
      else .ok (procExists shared.alive (trimEnd line))

inductive Phase where
  | checking (vmNum : Nat)
  -- vm_start has been called
  | starting (vmNum : Nat)
  -- its QEMU runs
  | spawned (vmNum pid : Nat)
  -- and has written its pid file
  | booted (vmNum pid : Nat)
  | exited
deriving DecidableEq, Repr

-- The number a process whose VM has not exited has called vm_start with.
def Phase.called : Phase → Option Nat
  | .starting vmNum => some vmNum
  | .spawned vmNum _ => some vmNum
  | .booted vmNum _ => some vmNum
  | .checking _ => none
  | .exited => none

def Phase.pid : Phase → Option Nat
  | .spawned _ pid => some pid
  | .booted _ pid => some pid
  | .checking _ => none
  | .starting _ => none
  | .exited => none

-- One turn of the loop in main.
def mainTurn (shared : Shared) (vmNum : Nat) : Phase :=
  match vmIsRunning shared vmNum with
  | .error _ => .exited
  | .ok true => if vmNum + 1 < 1000 then .checking (vmNum+1) else .exited
  | .ok false => .starting vmNum

-- PID_MAX_LIMIT of Linux
def pidLimit : Nat := 2^22

-- What QEMU writes for -pidfile.
def pidText (pid : Nat) : List UInt8 := Radix.decBytes pid ++ [10]

structure System (ι : Type) extends Shared where
  phase : ι → Phase

variable {ι : Type} [DecidableEq ι]

def System.enter (s : System ι) (p : ι) (next : Phase) : System ι := {s with phase:=Function.update s.phase p next}

inductive Step : System ι → System ι → Prop where
  | check : s.phase p = .checking n → Step s (s.enter p (mainTurn s.toShared n))
  | fail : s.phase p = .starting n → Step s (s.enter p .exited)
  | spawn : s.phase p = .starting n → s.alive pid = false → pid < pidLimit →
      Step s {s.enter p (.spawned n pid) with alive:=Function.update s.alive pid true}
  | write : s.phase p = .spawned n pid →
      Step s {s.enter p (.booted n pid) with pidFile:=Function.update s.pidFile n (.ok (pidText pid))}
  | abort : s.phase p = .spawned n pid → Step s {s.enter p .exited with alive:=Function.update s.alive pid false}
  -- QEMU removes its pid file, unless it is killed
  | exit : s.phase p = .booted n pid → left = s.pidFile n ∨ left = .error (.ofKind .notFound) →
      Step s {s.enter p .exited with pidFile:=Function.update s.pidFile n left,alive:=Function.update s.alive pid false}
  -- any other process of the host
  | other : (∀ p, (s.phase p).pid ≠ some pid) →
      Step s {s with alive:=Function.update s.alive pid lives}

-- vm_start has been called and the pid is not yet in the file.
def Pending (phase : Phase) (n : Nat) : Prop := phase = .starting n ∨ ∃ pid, phase = .spawned n pid

-- No process finds a number free while it is pending.
def Clear (s next : System ι) : Prop :=
  ∀ p n, s.phase p = .checking n → next.phase p = .starting n → ∀ q, ¬Pending (s.phase q) n

-- No two processes hold the same thing.
def Apart (held : Phase → Option Nat) (s : System ι) : Prop :=
  ∀ p q n, held (s.phase p) = some n → held (s.phase q) = some n → p = q

def Runs : System ι → System ι → Prop := Relation.ReflTransGen fun s next => Step s next ∧ Clear s next

section enter
variable {s : System ι} {p : ι}

theorem enter_self (s : System ι) (p : ι) (next : Phase) : (s.enter p next).phase p = next := Function.update_self ..

theorem enter_other (other : q ≠ p) (next : Phase) : (s.enter p next).phase q = s.phase q := Function.update_of_ne other ..

theorem Apart.enter (apart : Apart held s) (free : ∀ n, held next = some n → ∀ q, q ≠ p → held (s.phase q) ≠ some n) :
    Apart held (s.enter p next) := by
  intro q r n first second
  by_cases one : q = p
  · by_cases two : r = p
    · rw [one,two]
    · rw [one,enter_self] at first
      rw [enter_other two] at second
      exact absurd second (free n first r two)
  · by_cases two : r = p
    · rw [two,enter_self] at second
      rw [enter_other one] at first
      exact absurd first (free n second q one)
    · rw [enter_other one] at first
      rw [enter_other two] at second
      exact apart q r n first second

omit [DecidableEq ι] in
theorem Apart.alone (apart : Apart held s) (holds : held (s.phase p) = some n) : ∀ q, q ≠ p → held (s.phase q) ≠ some n :=
  fun q other taken => other (apart q p n taken holds)

end enter

end Rapido.VmNumbers

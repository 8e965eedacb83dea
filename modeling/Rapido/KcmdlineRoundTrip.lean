import Rapido.Kcmdline

-- What the guest reads of the command line that the host built.
namespace Rapido.Kcmdline
open Text KvConf

-- No character at which kcli_parse splits.
def Clean (w : Str) : Prop := ∀ c ∈ w, c ≠ ' ' ∧ c ≠ '\n'

instance : DecidablePred Clean := fun w => List.decidableBAll (fun c => c ≠ ' ' ∧ c ≠ '\n') w

theorem Clean.append (first : Clean v) (second : Clean w) : Clean (v ++ w) := by
  intro c member
  rcases List.mem_append.mp member with inside | inside
  · exact first c inside
  · exact second c inside

theorem Clean.cons (first : c ≠ ' ' ∧ c ≠ '\n') (second : Clean w) : Clean (c :: w) := by
  intro d member
  rcases List.mem_cons.mp member with rfl | inside
  · exact first
  · exact second d inside

theorem clean_of_visible (visible : ∀ c ∈ w, whitespace c = false) : Clean w := by
  intro c member
  constructor
  · rintro rfl
    exact absurd (visible _ member) (by decide)
  · rintro rfl
    exact absurd (visible _ member) (by decide)

theorem clean_of_high (high : ∀ c ∈ w, 48 ≤ c.toNat) : Clean w := by
  intro c member
  constructor
  · rintro rfl
    exact absurd (high _ member) (by decide)
  · rintro rfl
    exact absurd (high _ member) (by decide)

theorem digitChar_high (small : digit < 16) : 48 ≤ (Nat.digitChar digit).toNat := by
  interval_cases digit <;> decide

theorem toDigits_high (n : Nat) : ∀ c ∈ Nat.toDigits 16 n, 48 ≤ c.toNat := by
  induction n using Nat.strongRecOn with
  | _ n ih =>
    intro c member
    by_cases small : n < 16
    · rw [Nat.toDigits_of_lt_base small] at member
      rw [List.mem_singleton.mp member]
      exact digitChar_high small
    · rw [Nat.toDigits_of_base_le (by decide) (by omega)] at member
      rcases List.mem_append.mp member with front | last
      · exact ih (n / 16) (Nat.div_lt_self (by omega) (by decide)) c front
      · rw [List.mem_singleton.mp last]
        exact digitChar_high (Nat.mod_lt _ (by decide))

theorem clean_dec (n : Nat) : Clean (dec n) := clean_of_high fun _ member => (Radix.toDigits_bounds member).1

theorem clean_hex (width n : Nat) : Clean (hex width n) := by
  refine clean_of_high fun c member => ?_
  rcases List.mem_append.mp member with pad | digit
  · rw [List.eq_of_mem_replicate pad]
    decide
  · exact toDigits_high n c digit

theorem clean_mac (host : VmHost) (vmNum : UInt64) (vmTap : Str) : Clean (vmMacGen host vmNum vmTap) := by
  have colon : (':' : Char) ≠ ' ' ∧ ':' ≠ '\n' := by decide
  unfold vmMacGen
  refine .append (.append (.append (.append (.append ?_ (clean_hex _ _)) ?_) ?_) ?_) ?_
  · decide
  all_goals exact .cons colon (clean_hex _ _)

-- Words with a space before each but the first.
def joined : List Str → Str
  | [] => []
  | w :: words => w ++ words.flatMap fun v => ' ' :: v

theorem encode_clean (clean : Clean w) : ∀ b ∈ Utf8.encode w, separates b = false := by
  intro b member
  by_cases space : b = 32
  · subst space
    exact absurd rfl (clean ' ' (Utf8.mem_encode_ascii member (by decide))).1
  · by_cases newline : b = 10
    · subst newline
      exact absurd rfl (clean '\n' (Utf8.mem_encode_ascii member (by decide))).2
    · simp [separates,space,newline]

theorem split_words (first : Clean w) (clean : ∀ v ∈ words, Clean v) :
    (Utf8.encode (joined (w :: words)) ++ [10]).splitOnP separates = (w :: words).map Utf8.encode ++ [[]] := by
  induction words generalizing w with
  | nil =>
    simp only [joined,List.flatMap_nil,List.append_nil]
    rw [List.splitOnP_append_cons_of_forall_mem (encode_clean first) 10 (by decide)]
    rfl
  | cons next words ih =>
    have rest := ih (clean next List.mem_cons_self) fun v inside => clean v (List.mem_cons_of_mem _ inside)
    have shape : Utf8.encode (joined (w :: next :: words)) = Utf8.encode w ++ 32 :: Utf8.encode (joined (next :: words)) := by
      simp only [joined,List.flatMap_cons,List.cons_append]
      rw [Utf8.encode_append]
      rfl
    rw [shape,List.append_assoc,List.cons_append,
      List.splitOnP_append_cons_of_forall_mem (encode_clean first) 32 (by decide),rest]
    rfl

theorem kcliWords_cons (read : kcliWord args w = .ok next) (rest : List (List UInt8)) :
    kcliWords args (w :: rest) = kcliWords next rest := by
  rw [kcliWords,read]

theorem kcliWords_append (args : KcliArgs) (front back : List (List UInt8)) :
    kcliWords args (front ++ back) = (kcliWords args front).bind fun args => kcliWords args back := by
  induction front generalizing args with
  | nil => rfl
  | cons w rest ih =>
    simp only [List.cons_append,kcliWords]
    cases kcliWord args w with
    | error e => rfl
    | ok args => exact ih args

theorem fromUtf8_encode (s : Str) : fromUtf8 (Utf8.encode s) = .ok s := by
  unfold fromUtf8
  rw [Utf8.decode_encode]

section words
variable (args : KcliArgs) (val : Str)

theorem word_console : kcliWord args (Utf8.encode ("console=".toList ++ val)) = .ok {args with console:=some val} := by
  rw [Utf8.encode_append]
  change (fromUtf8 (Utf8.encode val)).map _ = _
  rw [fromUtf8_encode]
  rfl

theorem word_vmNum : kcliWord args (Utf8.encode ("rapido.vm_num=".toList ++ val)) = .ok {args with rapidoVmNum:=some val} := by
  rw [Utf8.encode_append]
  change (fromUtf8 (Utf8.encode val)).map _ = _
  rw [fromUtf8_encode]
  rfl

theorem word_machineId :
    kcliWord args (Utf8.encode ("systemd.machine_id=".toList ++ val)) = .ok {args with systemdMachineId:=some val} := by
  rw [Utf8.encode_append]
  change (fromUtf8 (Utf8.encode val)).map _ = _
  rw [fromUtf8_encode]
  rfl

theorem word_hostname :
    kcliWord args (Utf8.encode ("rapido.hostname=".toList ++ val)) = .ok {args with rapidoHostname:=some val} := by
  rw [Utf8.encode_append]
  change (fromUtf8 (Utf8.encode val)).map _ = _
  rw [fromUtf8_encode]
  rfl

theorem word_stty (rows cols : Nat) (fits : rows < 2^32 ∧ cols < 2^32) :
    kcliWord args (Utf8.encode ("rapido.stty=".toList ++ (dec rows ++ ',' :: dec cols))) =
      .ok {args with sttyRc:=some (dec rows ++ ',' :: dec cols)} := by
  have parses : ∀ n, n < 2^32 → parsesU32 (dec n) = true := by
    intro n small
    rw [parsesU32,dec,Utf8.encode_toDigits,Radix.fromStrRadix_decBytes small]
    rfl
  have comma : ',' ∉ dec rows := fun member => absurd (Radix.toDigits_bounds member).1 (by decide)
  rw [Utf8.encode_append]
  change sttyRowsCols args (Utf8.encode _) = _
  rw [sttyRowsCols,fromUtf8_encode]
  dsimp only
  rw [splitOnce_at comma]
  dsimp only
  rw [parses rows fits.1,parses cols fits.2]
  rfl

-- A pair is cut at the first '=', wherever that is.
theorem word_mac (tap mac : Str) : ∃ key rest, '=' ∉ key ∧ (('=' ∉ tap) → key = tap ∧ rest = mac) ∧
    kcliWord args (Utf8.encode ("rapido.mac.".toList ++ (tap ++ '=' :: mac))) =
      .ok {args with rapidoTapMac:=some ((args.rapidoTapMac.getD .empty).insert key rest)} := by
  have reads : ∀ key rest, '=' ∉ key → tap ++ '=' :: mac = key ++ '=' :: rest →
      kcliWord args (Utf8.encode ("rapido.mac.".toList ++ (tap ++ '=' :: mac))) =
        .ok {args with rapidoTapMac:=some ((args.rapidoTapMac.getD .empty).insert key rest)} := by
    intro key rest plain shape
    rw [Utf8.encode_append]
    change tapMac args (Utf8.encode _) = _
    rw [tapMac,fromUtf8_encode]
    dsimp only
    rw [shape,splitOnce_at plain]
  by_cases equals : '=' ∈ tap
  · obtain ⟨front,back,rfl,plain⟩ := List.eq_append_cons_of_mem equals
    exact ⟨front,back ++ '=' :: mac,plain,fun absent => absurd equals absent,reads _ _ plain (by simp)⟩
  · exact ⟨tap,mac,equals,fun _ => ⟨rfl,rfl⟩,reads _ _ equals rfl⟩

end words

-- A host that boots a VM on a terminal of the given size, with the given
-- hostname and tap devices.
structure Boot (host : VmHost) where
  console : Str
  size : Option (Nat × Nat)
  hostname : Option Str
  taps : List Str
  chosen : qemuConsole host = .ok console
  fits : ∀ rows cols, size = some (rows,cols) → rows < 2^32 ∧ cols < 2^32
  shown : host.stty = size.map fun rc => Utf8.encode (dec rc.1 ++ ' ' :: dec rc.2 ++ ['\n'])
  visible : ∀ hn, hostname = some hn → ∀ c ∈ hn, whitespace c = false
  named : (∃ text, host.hostname = .ok text ∧ hostname = some (trimEnd text)) ∨
    ∃ e, host.hostname = .error e ∧ e.kind = .notFound ∧ hostname = none
  valid : ∀ tap ∈ taps, tap ≠ [] ∧ '/' ∉ tap ∧ ':' ∉ tap ∧ ∀ c ∈ tap, whitespace c = false
  distinct : taps.Nodup
  listed : (host.net = true ∧ ∃ entries, host.netConf = .ok entries ∧ tapsOf host entries = .ok taps) ∨
    (host.net = false ∧ taps = [])
  plain : host.qemuExtraKernelParams = none

variable {host : VmHost}

def sttyText (rc : Nat × Nat) : Str := dec rc.1 ++ ',' :: dec rc.2

-- What the guest should know.
def expected (boot : Boot host) (vmNum : UInt64) : KcliArgs where
  rapidoHostname := boot.hostname
  rapidoVmNum := some (dec vmNum.toNat)
  rapidoTapMac := if boot.taps = [] then none
    else some fun tap => if tap ∈ boot.taps then some (vmMacGen host vmNum tap) else none
  sttyRc := boot.size.map sttyText
  systemdMachineId := some (hex 32 vmNum.toNat)
  console := some boot.console

def tapWord (host : VmHost) (vmNum : UInt64) (tap : Str) : Str := "rapido.mac.".toList ++ (tap ++ '=' :: vmMacGen host vmNum tap)

def optionWords (boot : Boot host) : List Str :=
  (boot.size.map fun rc => "rapido.stty=".toList ++ sttyText rc).toList ++
    (boot.hostname.map fun hn => "rapido.hostname=".toList ++ hn).toList ++
    (if host.net then ["net.ifnames=0".toList] else [])

def bootWords (boot : Boot host) (vmNum : UInt64) : List Str :=
  ["console=".toList ++ boot.console,"rapido.vm_num=".toList ++ dec vmNum.toNat,
    "systemd.machine_id=".toList ++ hex 32 vmNum.toNat] ++ optionWords boot ++ boot.taps.map (tapWord host vmNum)

theorem sttySize_words (boot : Boot host) (kcmdline : Str) : hostSttySize host kcmdline " rapido.stty=".toList =
    kcmdline ++ (boot.size.map fun rc => "rapido.stty=".toList ++ sttyText rc).toList.flatMap fun v => ' ' :: v := by
  unfold hostSttySize
  rw [boot.shown]
  cases boot.size with
  | none => simp
  | some rc =>
    obtain ⟨rows,cols⟩ := rc
    have bytes : ∀ n, Utf8.encode (dec n) = Radix.decBytes n := Utf8.encode_toDigits
    have digit : ∀ n, ∀ b ∈ Radix.decBytes n, isDigit b = true ∧ Char.ofNat b.toNat ∈ dec n := by
      intro n b member
      obtain ⟨c,inside,rfl⟩ := List.mem_map.mp member
      have bounds := Radix.toDigits_bounds inside
      have byte : (UInt8.ofNat c.toNat).toNat = c.toNat := Utf8.toNat_byte (by omega)
      refine ⟨?_,by rw [byte,Char.ofNat_toNat]; exact inside⟩
      simp only [isDigit,Bool.and_eq_true,decide_eq_true_eq,UInt8.le_iff_toNat_le,byte,UInt8.reduceToNat]
      exact bounds
    have back : ∀ n, (Radix.decBytes n).map (fun b => Char.ofNat b.toNat) = dec n := by
      intro n
      unfold Radix.decBytes dec
      rw [List.map_map]
      refine (List.map_congr_left fun c member => ?_).trans (List.map_id _)
      have bounds := Radix.toDigits_bounds member
      exact (congrArg Char.ofNat (Utf8.toNat_byte (by omega))).trans (Char.ofNat_toNat c)
    have filled : ∀ n, ¬(Radix.decBytes n).length < 1 := by
      intro n short
      have empty : Radix.decBytes n = [] := List.eq_nil_of_length_eq_zero (by omega)
      exact Nat.toDigits_ne_nil (List.map_eq_nil_iff.mp empty)
    have cut : (Utf8.encode (dec rows ++ ' ' :: dec cols ++ ['\n'])).splitOnP (fun b => !isDigit b) =
        [Radix.decBytes rows,Radix.decBytes cols,[]] := by
      rw [List.append_assoc,List.cons_append,Utf8.encode_append,bytes]
      change (Radix.decBytes rows ++ 32 :: Utf8.encode (dec cols ++ ['\n'])).splitOnP _ = _
      rw [List.splitOnP_append_cons_of_forall_mem (fun b member => by simp [(digit rows b member).1]) 32 (by decide),
        Utf8.encode_append,bytes]
      change _ :: (Radix.decBytes cols ++ 10 :: []).splitOnP _ = _
      rw [List.splitOnP_append_cons_of_forall_mem (fun b member => by simp [(digit cols b member).1]) 10 (by decide)]
      rfl
    simp only [Option.map_some,cut]
    rw [if_neg (by simp [filled rows,filled cols]),back,back]
    simp [sttyText]

theorem spaced_words (key : Str) (text : Str → Str) (taps : List Str) :
    (taps.flatMap fun tap => ' ' :: key ++ tap ++ '=' :: text tap) =
      (taps.map fun tap => key ++ (tap ++ '=' :: text tap)).flatMap fun v => ' ' :: v := by
  induction taps with
  | nil => rfl
  | cons tap rest ih =>
    rw [List.flatMap_cons,List.map_cons,List.flatMap_cons,ih]
    simp only [List.cons_append,List.append_assoc]

theorem vmKcmdline_words (boot : Boot host) (vmNum : UInt64) :
    vmKcmdline host vmNum = .ok (joined ("rdinit=/rdinit".toList :: bootWords boot vmNum)) := by
  have named : hostnameParam host =
      .ok ((boot.hostname.map fun hn => "rapido.hostname=".toList ++ hn).toList.flatMap fun v => ' ' :: v) := by
    unfold hostnameParam
    rcases boot.named with ⟨text,read,given⟩ | ⟨e,failed,missing,none⟩
    · rw [read,given]
      simp
    · rw [failed,none]
      simp [missing]
  have net : netParams host vmNum = .ok ((if host.net then ["net.ifnames=0".toList] else []).flatMap (fun v => ' ' :: v) ++
      (boot.taps.map (tapWord host vmNum)).flatMap fun v => ' ' :: v) := by
    unfold netParams
    rcases boot.listed with ⟨on,entries,read,taps⟩ | ⟨off,none⟩
    · have words := spaced_words "rapido.mac.".toList (vmMacGen host vmNum) boot.taps
      rw [if_pos on,if_pos on,read]
      change (tapsOf host entries >>= fun taps => _) = _
      rw [taps]
      exact congrArg (fun text => Except.ok (" net.ifnames=0".toList ++ text)) words
    · rw [if_neg (by simp [off]),if_neg (by simp [off]),none]
      rfl
  unfold vmKcmdline
  rw [boot.chosen]
  simp only [bind,Except.bind,pure,Except.pure,named,net,boot.plain,sttySize_words boot]
  simp only [joined,bootWords,optionWords,List.flatMap_append,List.flatMap_cons,List.append_assoc,List.append_nil,
    List.cons_append,List.nil_append]
  rfl


-- No key of the map holds '='.
def Cut (macs : Option Map) : Prop := ∀ map, macs = some map → ∀ key, '=' ∈ key → map key = none

def withMacs (mac : Str → Str) (taps : List Str) (macs : Option Map) : Option Map :=
  if taps = [] then macs else some fun tap => if tap ∈ taps then some (mac tap) else macs.getD .empty tap

theorem withMacs_cons (mac : Str → Str) (tap : Str) (rest : List Str) (macs : Option Map) :
    withMacs mac rest (some ((macs.getD .empty).insert tap (mac tap))) = withMacs mac (tap :: rest) macs := by
  have each : ∀ other, ((macs.getD .empty).insert tap (mac tap)) other =
      if other = tap then some (mac other) else macs.getD .empty other := by
    intro other
    by_cases now : other = tap
    · rw [now,Map.insert,Function.update_self,if_pos rfl]
    · rw [Map.insert,Function.update_of_ne now,if_neg now]
  unfold withMacs
  rw [if_neg (List.cons_ne_nil _ _)]
  by_cases last : rest = []
  · subst last
    rw [if_pos rfl]
    exact congrArg some (funext fun other => by simp [each])
  · rw [if_neg last]
    refine congrArg some (funext fun other => ?_)
    by_cases later : other ∈ rest
    · simp [later]
    · simp [later,each]

theorem macs_read (host : VmHost) (vmNum : UInt64) (taps : List Str) (args : KcliArgs) :
    ∃ macs, kcliWords args ((taps.map (tapWord host vmNum)).map Utf8.encode) = .ok {args with rapidoTapMac:=macs} ∧
      (Cut args.rapidoTapMac → Cut macs) ∧
      ((∀ tap ∈ taps, '=' ∉ tap) → macs = withMacs (vmMacGen host vmNum) taps args.rapidoTapMac) := by
  induction taps generalizing args with
  | nil => exact ⟨args.rapidoTapMac,rfl,id,fun _ => rfl⟩
  | cons tap rest ih =>
    obtain ⟨key,val,plain,same,read⟩ := word_mac args tap (vmMacGen host vmNum tap)
    obtain ⟨macs,reads,cut,all⟩ := ih {args with rapidoTapMac:=some ((args.rapidoTapMac.getD .empty).insert key val)}
    refine ⟨macs,?_,fun before => cut fun map given other equals => ?_,fun none => ?_⟩
    · unfold tapWord at reads ⊢
      rw [List.map_cons,List.map_cons,kcliWords_cons read]
      exact reads
    · cases given
      have differs : other ≠ key := fun same => plain (same ▸ equals)
      rw [Map.insert,Function.update_of_ne differs]
      cases kept : args.rapidoTapMac with
      | none => rfl
      | some map => exact before map kept other equals
    · obtain ⟨rfl,rfl⟩ := same (none tap List.mem_cons_self)
      rw [all fun other inside => none other (List.mem_cons_of_mem _ inside)]
      exact withMacs_cons _ _ _ _

theorem option_read (boot : Boot host) (args : KcliArgs) (fresh : args.rapidoHostname = none ∧ args.sttyRc = none) :
    kcliWords args ((optionWords boot).map Utf8.encode) =
      .ok {args with rapidoHostname:=boot.hostname,sttyRc:=boot.size.map sttyText} := by
  have stty : kcliWords args ((boot.size.map fun rc => "rapido.stty=".toList ++ sttyText rc).toList.map Utf8.encode) =
      .ok {args with sttyRc:=boot.size.map sttyText} := by
    cases given : boot.size with
    | none => exact congrArg (fun rc => Except.ok {args with sttyRc:=rc}) fresh.2
    | some rc => exact kcliWords_cons (word_stty args rc.1 rc.2 (boot.fits rc.1 rc.2 given)) []
  have hostname : ∀ args : KcliArgs, args.rapidoHostname = none →
      kcliWords args ((boot.hostname.map fun hn => "rapido.hostname=".toList ++ hn).toList.map Utf8.encode) =
        .ok {args with rapidoHostname:=boot.hostname} := by
    intro args unset
    cases boot.hostname with
    | none => exact congrArg (fun hn => Except.ok {args with rapidoHostname:=hn}) unset
    | some hn => exact kcliWords_cons (word_hostname args hn) []
  have ifnames : ∀ args : KcliArgs,
      kcliWords args ((if host.net then ["net.ifnames=0".toList] else []).map Utf8.encode) = .ok args := by
    intro args
    cases host.net with
    | true => rfl
    | false => rfl
  rw [optionWords,List.map_append,List.map_append,kcliWords_append,kcliWords_append,stty]
  change Except.bind (kcliWords _ _) _ = _
  rw [hostname {args with sttyRc:=boot.size.map sttyText} fresh.1]
  exact ifnames _

theorem console_clean (chosen : qemuConsole host = .ok console) : Clean console := by
  unfold qemuConsole at chosen
  split at chosen
  · rename_i found
    cases chosen
    obtain ⟨line,-,named⟩ := List.exists_of_findSome?_eq_some found
    unfold consoleOf at named
    split_ifs at named
    all_goals
      cases named
      decide
  · cases chosen

theorem bootWords_clean (boot : Boot host) (vmNum : UInt64) : ∀ w ∈ bootWords boot vmNum, Clean w := by
  intro w member
  rcases List.mem_append.mp member with front | mac
  · rcases List.mem_append.mp front with fixed | chosen
    · rcases List.mem_cons.mp fixed with rfl | fixed
      · exact .append (by decide) (console_clean boot.chosen)
      · rcases List.mem_cons.mp fixed with rfl | fixed
        · exact .append (by decide) (clean_dec _)
        · rw [List.mem_singleton.mp fixed]
          exact .append (by decide) (clean_hex _ _)
    · rcases List.mem_append.mp chosen with chosen | net
      · rcases List.mem_append.mp chosen with stty | hostname
        · obtain ⟨rc,-,rfl⟩ := Option.map_eq_some_iff.mp (Option.mem_toList.mp stty)
          exact .append (by decide) (.append (clean_dec _) (.cons (by decide) (clean_dec _)))
        · obtain ⟨hn,given,rfl⟩ := Option.map_eq_some_iff.mp (Option.mem_toList.mp hostname)
          exact .append (by decide) (clean_of_visible (boot.visible hn given))
      · cases on : host.net with
        | true =>
          rw [on,if_pos rfl] at net
          rw [List.mem_singleton.mp net]
          decide
        | false =>
          rw [on,if_neg (by decide)] at net
          cases net
  · obtain ⟨tap,inside,rfl⟩ := List.mem_map.mp mac
    exact .append (by decide) (.append (clean_of_visible (boot.valid tap inside).2.2.2) (.cons (by decide) (clean_mac _ _ _)))

-- What every command line tells.
def always (boot : Boot host) (vmNum : UInt64) : KcliArgs where
  rapidoVmNum := some (dec vmNum.toNat)
  systemdMachineId := some (hex 32 vmNum.toNat)
  console := some boot.console

-- The guest reads everything as the host meant it, the MACs apart.
theorem boot_read (boot : Boot host) (vmNum : UInt64) :
    ∃ macs, kcliParse (Utf8.encode (joined ("rdinit=/rdinit".toList :: bootWords boot vmNum)) ++ [10]) =
        .ok {expected boot vmNum with rapidoTapMac:=macs} ∧ Cut macs ∧
      ((∀ tap ∈ boot.taps, '=' ∉ tap) → macs = (expected boot vmNum).rapidoTapMac) := by
  obtain ⟨macs,reads,cut,all⟩ := macs_read host vmNum boot.taps
    {always boot vmNum with rapidoHostname:=boot.hostname,sttyRc:=boot.size.map sttyText}
  refine ⟨macs,?_,cut fun _ given => (nomatch given),all⟩
  have options := option_read boot (always boot vmNum) ⟨rfl,rfl⟩
  rw [kcliParse,split_words (by decide) (bootWords_clean boot vmNum),List.map_cons,List.cons_append,
    kcliWords_cons rfl,bootWords,List.map_append,List.map_append,List.map_cons,List.map_cons,List.map_cons,
    List.append_assoc,List.append_assoc,List.cons_append,kcliWords_cons (word_console {} boot.console),
    List.cons_append,kcliWords_cons (word_vmNum _ _),List.cons_append,kcliWords_cons (word_machineId _ _)]
  change kcliWords (always boot vmNum) ([] ++ _) = _
  rw [List.nil_append,kcliWords_append,options]
  change kcliWords _ _ = _
  rw [kcliWords_append,reads]
  rfl

theorem kcmdline_roundtrip (boot : Boot host) (vmNum : UInt64) : ∃ kcmdline, vmKcmdline host vmNum = .ok kcmdline ∧
    (kcliParse (Utf8.encode kcmdline ++ [10]) = .ok (expected boot vmNum) ↔ ∀ tap ∈ boot.taps, '=' ∉ tap) := by
  obtain ⟨macs,reads,cut,all⟩ := boot_read boot vmNum
  refine ⟨_,vmKcmdline_words boot vmNum,?_⟩
  rw [reads]
  constructor
  · intro same tap inside equals
    have agree : macs = (expected boot vmNum).rapidoTapMac := congrArg KcliArgs.rapidoTapMac (Except.ok.inj same)
    have some_taps : boot.taps ≠ [] := List.ne_nil_of_mem inside
    rw [expected,if_neg some_taps] at agree
    have absent := cut _ agree tap equals
    rw [if_pos inside] at absent
    cases absent
  · intro none
    rw [all none]

-- One tap whose name holds '=', which Linux allows.
def equalsHost : VmHost where
  kconfig := ["CONFIG_X86_64=y".toList]
  stty := some (Utf8.encode "24 80\n".toList)
  hostname := .ok "rapido1\n".toList
  netConf := .ok [Utf8.encode "a=b.network".toList]
  tunFlags := fun _ => .ok (Utf8.encode "0x1002\n".toList)
  net := true
  hasher := fun _ _ => 0
  qemuExtraKernelParams := none

theorem equalsHost_taps : tapsOf equalsHost [Utf8.encode "a=b.network".toList] = .ok ["a=b".toList] := by
  decide +kernel

def equalsBoot : Boot equalsHost where
  console := "ttyS0".toList
  size := some (24,80)
  hostname := some "rapido1".toList
  taps := ["a=b".toList]
  chosen := by decide
  fits := by
    intro rows cols given
    cases given
    decide
  shown := by decide
  visible := by
    intro hn given
    cases given
    exact visible_of_all (by decide)
  named := .inl ⟨_,rfl,by decide⟩
  valid := by
    intro tap only
    rw [List.mem_singleton.mp only]
    exact ⟨by decide,by decide,by decide,visible_of_all (by decide)⟩
  distinct := by decide
  listed := .inl ⟨rfl,_,rfl,equalsHost_taps⟩
  plain := rfl

theorem kcmdline_equals_lost : ∃ kcmdline, vmKcmdline equalsHost 1 = .ok kcmdline ∧
    kcliParse (Utf8.encode kcmdline ++ [10]) ≠ .ok (expected equalsBoot 1) := by
  obtain ⟨macs,reads,cut,-⟩ := boot_read equalsBoot 1
  refine ⟨_,vmKcmdline_words equalsBoot 1,fun same => ?_⟩
  rw [reads] at same
  have agree : macs = (expected equalsBoot 1).rapidoTapMac := congrArg KcliArgs.rapidoTapMac (Except.ok.inj same)
  have absent := cut _ agree "a=b".toList (by decide)
  cases absent

end Rapido.Kcmdline

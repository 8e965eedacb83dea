import Rapido.GuestInit

-- What has been done when, in every run of rapido-init.
namespace Rapido.GuestInit
open Text KvConf Kcmdline Journal

-- The answers after which nothing but the power is left to be turned off.
def fatal : Action × Outcome → Bool
  | (.symlinkMetadata _,_) => false
  | (.symlink _ link,.error _) => link != lit "/dev/fd"
  | (.openAppend _ create,.error _) => create
  | (_,.error _) => true
  | (.command program args _,.ok status) =>
    !status.success && !(program == lit "mount" && (args == debugfsArgs || args == hostArgs))
  | (_,.ok _) => false

def powersOff : Action → Bool
  | .write path _ => path == lit "/proc/sys/kernel/sysrq" || path == lit "/proc/sysrq-trigger"
  | _ => false

def Unbroken (log : Log Action Outcome) : Prop := ∀ entry ∈ log, fatal entry = false

def Done (a : Action) (log : Log Action Outcome) : Prop := ∃ reply, (a,.ok reply) ∈ log ∧ fatal (a,.ok reply) = false

-- /rapido.conf, and whether there is a network to set up.
def Configured (conf : Map) (log : Log Action Outcome) : Prop :=
  ∃ file, (.openConf,.ok file) ∈ log ∧ Cut.kvConfFileAppend file.data .empty = (.ok (),conf)
def Found (hasNet : Bool) (log : Log Action Outcome) : Prop :=
  ∃ outcome, (.symlinkMetadata (lit "/rapido-rsc/net"),outcome) ∈ log ∧ hasNet = statDir outcome

def Mounted (log : Log Action Outcome) : Prop := ∀ args, args ∈ mounts → Done (.command (lit "mount") args []) log

def Loaded (kmods : List Str) (log : Log Action Outcome) : Prop :=
  0 < kmods.length → Done (.command (lit "modprobe") (lit "-a" :: kmods.map Utf8.encode) [("PATH",BIN_PATH)]) log

def Read (kcliArgs : KcliArgs) (log : Log Action Outcome) : Prop :=
  ∃ file, (.read (lit "/proc/cmdline"),.ok file) ∈ log ∧ kcliParse file.data = .ok kcliArgs

-- The name up to the first dot, or one made of the VM's number.
def hostnameOf (kcliArgs : KcliArgs) (n : Str) : Str :=
  match kcliArgs.rapidoHostname with
  | none => "rapido".toList ++ n
  | some hd => hd.takeWhile (· != '.')

def Hostnamed (hostname : Str) (log : Log Action Outcome) : Prop :=
  Done (.write (lit "/proc/sys/kernel/hostname") (Utf8.encode hostname)) log

-- A tap's MAC is in its .network file, if there is such a file.
def Matched (n : Str) (pair : Str × Str) (log : Log Action Outcome) : Prop :=
  Done (.append (tapNetwork n pair.1) (macMatch pair.2)) log ∨ ∃ e, (.openAppend (tapNetwork n pair.1) false,.error e) ∈ log

def tapMacs (guest : Guest) (kcliArgs : KcliArgs) : List (Str × Str) := (kcliArgs.rapidoTapMac.map guest.iter).getD []

def Networked (guest : Guest) (kcliArgs : KcliArgs) (n : Str) (log : Log Action Outcome) : Prop :=
  Done (.symlink (vmNetdir n) (lit "/etc/systemd/network")) log ∧ (∀ pair, pair ∈ tapMacs guest kcliArgs → Matched n pair log) ∧
    Done (.append loNetwork (lit "[Match]\nName=lo")) log

def Online (kcliArgs : KcliArgs) (log : Log Action Outcome) : Prop :=
  (∃ mid, kcliArgs.systemdMachineId = some mid ∧ Done (.write (lit "/etc/machine-id") (Utf8.encode mid)) log) ∧
  Done (.command (lit "/usr/lib/systemd/systemd-udevd") [lit "--daemon"] []) log ∧
  Done (.command (lit "setsid") [lit "--fork",lit "/usr/lib/systemd/systemd-networkd"] []) log ∧
  Done (.command (lit "/usr/lib/systemd/systemd-networkd-wait-online") [lit "--timeout=20"] []) log

-- The host's directory has been mounted, as far as mount could.
def Shared (conf : Map) (log : Log Action Outcome) : Prop :=
  (conf "VIRTFS_SHARE_PATH".toList).isSome = true → Done (.command (lit "mount") hostArgs []) log

-- The modules for QEMU's devices are loaded.
def Equipped (hasNet : Bool) (log : Log Action Outcome) : Prop :=
  ∃ conf, Configured conf log ∧ Found hasNet log ∧ Loaded (kmodsOf conf hasNet) log ∧ Shared conf log

-- What is known when the kernel command line has been read.
structure Informed (hasNet : Bool) (kcliArgs : KcliArgs) (log : Log Action Outcome) : Prop where
  mounted : Mounted log
  equipped : Equipped hasNet log
  told : Read kcliArgs log

-- What the programs that init hands over to can rely on.
structure Prepared (guest : Guest) (hasNet : Bool) (kcliArgs : KcliArgs) (n : Str) (log : Log Action Outcome) : Prop
    extends Informed hasNet kcliArgs log where
  numbered : kcliArgs.rapidoVmNum = some n
  named : Hostnamed (hostnameOf kcliArgs n) log
  networked : hasNet = true → Networked guest kcliArgs n log

-- What has to be done before an action.
structure Needs (guest : Guest) (a : Action) (log : Log Action Outcome) : Prop where
  unbroken : powersOff a = false → Unbroken log
  modprobe : ∀ args envs, a = .command (lit "modprobe") args envs → Mounted log
  cmdline : a = .read (lit "/proc/cmdline") → Mounted log ∧ ∃ hasNet, Equipped hasNet log
  systemd : ∀ envs, a = .exec SYSTEMD_BIN_PATH envs → ∃ hasNet kcliArgs n, Prepared guest hasNet kcliArgs n log ∧
    envs = ("DRACUT_SYSTEMD",lit "1") :: envsOf (hostnameOf kcliArgs n) kcliArgs
  shell : ∀ args envs, a = .spawn (lit "setsid") args envs → ∃ hasNet kcliArgs n, Prepared guest hasNet kcliArgs n log ∧
    (hasNet = true → Online kcliArgs log) ∧ envs = envsOf (hostnameOf kcliArgs n) kcliArgs

-- Programs that have to be there.
def executed : Action → Bool
  | .command program _ _ => program != lit "modprobe"
  | .spawn _ _ _ => true
  | .exec _ _ => true
  | _ => false

-- The last thing that was done, where init stops.
def Ended : Stop → Log Action Outcome → Prop
  | .error _,_ => True
  | .panic _,log => ∃ front a e, log = front ++ [(a,.error e)] ∧ executed a = true
  | .replaced,log => ∃ front envs reply, log = front ++ [(.exec SYSTEMD_BIN_PATH envs,.ok reply)]

theorem unbroken_snoc (unbroken : Unbroken log) (fine : fatal entry = false) : Unbroken (log ++ [entry]) := by
  intro other inside
  rcases List.mem_append.mp inside with before | last
  · exact unbroken other before
  · rw [List.mem_singleton.mp last]
    exact fine

theorem done_lasting (a : Action) : Lasting (Done a) := .some fun _ => .and (.mem _) (.const _)

theorem done_last {log : Log Action Outcome} (inside : (a,.ok reply) ∈ log) (unbroken : Unbroken log) : Done a log :=
  ⟨reply,inside,unbroken _ inside⟩

-- Actions that only an unbroken run is needed for.
def ordinary : Action → Bool
  | .command program _ _ => program != lit "modprobe"
  | .read _ => false
  | .spawn _ _ _ => false
  | .exec _ _ => false
  | _ => true

theorem needs_ordinary (plain : ordinary a = true) (unbroken : Unbroken log) : Needs guest a log where
  unbroken := fun _ => unbroken
  modprobe := by
    rintro args envs rfl
    exact absurd plain (by simp [ordinary])
  cmdline := by
    rintro rfl
    cases plain
  systemd := by
    rintro envs rfl
    cases plain
  shell := by
    rintro args envs rfl
    cases plain

-- One part of init_main, which goes on only while nothing is broken.
abbrev Goes (guest : Guest) (know : Log Action Outcome → Prop) (act : Boot α) (gains : α → Log Action Outcome → Prop) : Prop :=
  Obeys guest.answer (Needs guest) Ended (fun log => Unbroken log ∧ know log) act fun value log => Unbroken log ∧ gains value log

section rules
variable {guest : Guest} {know : Log Action Outcome → Prop} (lasting : Lasting know)

-- What was just answered.
def Answered (a : Action) (know : Log Action Outcome → Prop) (outcome : Outcome) (log : Log Action Outcome) : Prop :=
  ∃ front, log = front ++ [(a,outcome)] ∧ Unbroken front ∧ know front

include lasting in
theorem Answered.fine (answered : Answered a know outcome log) (fine : fatal (a,outcome) = false) :
    Unbroken log ∧ know log ∧ (a,outcome) ∈ log := by
  obtain ⟨front,rfl,unbroken,known⟩ := answered
  exact ⟨unbroken_snoc unbroken fine,lasting _ _ known,List.mem_append_right _ (List.mem_singleton.mpr rfl)⟩

theorem Answered.ended (answered : Answered a know (.error e) log) (runs : executed a = true) : Ended (.panic msg) log := by
  obtain ⟨front,rfl,_⟩ := answered
  exact ⟨front,a,e,rfl,runs⟩

theorem ask_answered (met : ∀ log, Unbroken log → know log → Needs guest a log) :
    Obeys guest.answer (Needs guest) Ended (fun log => Unbroken log ∧ know log) (ask guest a) (Answered a know) :=
  .perform (fun log known => met log known.1 known.2) fun log _ known => ⟨log,rfl,known⟩

include lasting in
theorem must_goes (met : ∀ log, Unbroken log → know log → Needs guest a log) (fine : ∀ reply, fatal (a,.ok reply) = false) :
    Goes guest know (must guest a) fun reply log => know log ∧ (a,.ok reply) ∈ log := by
  refine .bind (ask_answered met) fun outcome => ?_
  cases outcome with
  | ok reply => exact .pure fun log answered => answered.fine lasting (fine reply)
  | error e => exact .fail fun _ _ => trivial

include lasting in
theorem expect_goes (met : ∀ log, Unbroken log → know log → Needs guest a log) (fine : ∀ reply, fatal (a,.ok reply) = false)
    (runs : executed a = true) : Goes guest know (expect guest a msg) fun reply log => know log ∧ (a,.ok reply) ∈ log := by
  refine .bind (ask_answered met) fun outcome => ?_
  cases outcome with
  | ok reply => exact .pure fun log answered => answered.fine lasting (fine reply)
  | error e => exact .fail fun _ answered => answered.ended runs

theorem Goes.forget {act : Boot α} {fact : α → Log Action Outcome → Prop} (goes : Goes guest know act fun value log => know log ∧ fact value log) :
    Goes guest know act fun _ log => know log :=
  goes.weaken (fun _ known => known) fun _ _ known => ⟨known.1,known.2.1⟩

include lasting in
theorem runCommand_goes (plain : (program != lit "modprobe") = true) :
    Goes guest know (runCommand guest program args msg) fun _ log => know log ∧ Done (.command program args []) log := by
  have met : ∀ log, Unbroken log → know log → Needs guest (.command program args []) log :=
    fun log unbroken _ => needs_ordinary plain unbroken
  have answered : Obeys guest.answer (Needs guest) Ended (fun log => Unbroken log ∧ know log) (expect guest (.command program args []) msg)
      fun status => Answered (.command program args []) know (.ok status) := by
    refine .bind (ask_answered met) fun outcome => ?_
    cases outcome with
    | ok reply => exact .pure fun log answered => answered
    | error e => exact .fail fun _ answered => answered.ended plain
  refine .bind answered fun status => .runIf (fun _ => .fail fun _ _ => trivial) fun succeeded log answered => ?_
  have fine : fatal (.command program args [],.ok status) = false := by
    rw [fatal,Bool.eq_true_of_not_eq_false succeeded]
    rfl
  obtain ⟨unbroken,known,inside⟩ := answered.fine lasting fine
  exact ⟨unbroken,known,status,inside,fine⟩

include lasting in
theorem forEach_goes {act : γ → Boot Unit} {fact : γ → Log Action Outcome → Prop} {list : List γ} (stays : ∀ c, Lasting (fact c))
    (each : ∀ c ∈ list, ∀ know, Lasting know → Goes guest know (act c) fun _ log => know log ∧ fact c log) :
    Goes guest know (.forEach act list) fun _ log => know log ∧ ∀ c, c ∈ list → fact c log := by
  induction list generalizing know with
  | nil => exact .pure fun log known => ⟨known.1,known.2,nofun⟩
  | cons first rest ih =>
    refine .bind (each first List.mem_cons_self know lasting) fun _ => ?_
    have later := ih (.and lasting (stays first)) fun c inside => each c (List.mem_cons_of_mem _ inside)
    refine later.weaken (fun _ known => known) ?_
    rintro _ log ⟨unbroken,⟨known,here⟩,others⟩
    exact ⟨unbroken,known,List.forall_mem_cons.mpr ⟨here,others⟩⟩

include lasting in
theorem confRead_goes : Goes guest know (confRead guest) fun conf log => know log ∧ Configured conf log := by
  refine .bind (must_goes lasting (fun _ unbroken _ => needs_ordinary rfl unbroken) fun _ => rfl) fun file => ?_
  cases read : Cut.kvConfFileAppend file.data .empty with
  | mk result conf =>
    cases result with
    | error e =>
      have calm : e.kind ≠ .panic := Cut.kvConfFileAppend_calm read
      exact .fail fun _ _ => by rw [stopOf,if_neg calm]; trivial
    | ok done => exact .pure fun log known => ⟨known.1,known.2.1,file,known.2.2,read⟩

include lasting in
theorem stat_goes (path : List UInt8) (view : Outcome → Bool) : Goes guest know (view <$> ask guest (.symlinkMetadata path))
    fun answer log => know log ∧ ∃ outcome, (.symlinkMetadata path,outcome) ∈ log ∧ answer = view outcome := by
  refine .bind (ask_answered fun _ unbroken _ => needs_ordinary rfl unbroken) fun outcome => .pure fun log answered => ?_
  have fine : fatal (.symlinkMetadata path,outcome) = false := by cases outcome <;> rfl
  obtain ⟨unbroken,known,inside⟩ := answered.fine lasting fine
  exact ⟨unbroken,known,outcome,inside,rfl⟩

include lasting in
theorem mountOne_goes (args : List (List UInt8)) :
    Goes guest know (mountOne guest args) fun _ log => know log ∧ Done (.command (lit "mount") args []) log := by
  exact .bind (Goes.forget (must_goes lasting (fun _ unbroken _ => needs_ordinary rfl unbroken) fun _ => rfl)) fun _ =>
    runCommand_goes lasting rfl

include lasting in
theorem initMount_goes (doDebugfs : Bool) : Goes guest know (initMount guest doDebugfs) fun _ log => know log ∧ Mounted log := by
  have mounted : Goes guest know (.forEach (mountOne guest) mounts) fun _ log => know log ∧ Mounted log :=
    forEach_goes lasting (fun _ => done_lasting _) fun args _ know lasting => mountOne_goes lasting args
  have lasts : Lasting fun log => know log ∧ Mounted log := .and lasting (.every fun _ => .imp (done_lasting _))
  have debugfs : Goes guest (fun log => know log ∧ Mounted log) (Eff.runIf (doDebugfs = true) (do
      let _ ← expect guest (.command (lit "mount") debugfsArgs []) "failed to execute mount command"))
      fun _ log => know log ∧ Mounted log := by
    have tolerated : ∀ reply, fatal (.command (lit "mount") debugfsArgs [],.ok reply) = false := by
      intro reply
      simp [fatal]
    refine .runIf (fun _ => ?_) fun _ _ known => known
    exact .bind (Goes.forget (expect_goes lasts (fun _ unbroken _ => needs_ordinary rfl unbroken) tolerated rfl)) fun _ =>
      .pure fun _ known => known
  refine .bind mounted fun _ => .bind debugfs fun _ => ?_
  refine .bind (ask_answered fun _ unbroken _ => needs_ordinary rfl unbroken) fun outcome => .pure fun log answered => ?_
  have fine : fatal (.symlink (lit "/proc/self/fd") (lit "/dev/fd"),outcome) = false := by cases outcome <;> simp [fatal]
  obtain ⟨unbroken,known,_⟩ := answered.fine lasts fine
  exact ⟨unbroken,known⟩

include lasting in
theorem kmodsLoad_goes (mounted : ∀ log, know log → Mounted log) (kmods : List Str) :
    Goes guest know (kmodsLoad guest kmods) fun _ log => know log ∧ Loaded kmods log := by
  refine .runIf (fun some => ?_) fun none log known => ⟨known.1,known.2,fun some => absurd some none⟩
  have met : ∀ log, Unbroken log → know log →
      Needs guest (.command (lit "modprobe") (lit "-a" :: kmods.map Utf8.encode) [("PATH",BIN_PATH)]) log :=
    fun log unbroken known => ⟨fun _ => unbroken,fun _ _ _ => mounted log known,nofun,nofun,nofun⟩
  refine .bind (ask_answered met) fun outcome => ?_
  cases outcome with
  | error e => exact .fail fun _ _ => trivial
  | ok status =>
    refine .runIf (fun _ => .fail fun _ _ => trivial) fun succeeded log answered => ?_
    have fine : fatal (.command (lit "modprobe") (lit "-a" :: kmods.map Utf8.encode) [("PATH",BIN_PATH)],.ok status) = false := by
      rw [fatal,Bool.eq_true_of_not_eq_false succeeded]
      rfl
    obtain ⟨unbroken,known,inside⟩ := answered.fine lasting fine
    exact ⟨unbroken,known,fun _ => ⟨status,inside,fine⟩⟩

include lasting in
theorem mountHost_goes : Goes guest know (mountHost guest) fun _ log => know log ∧ Done (.command (lit "mount") hostArgs []) log := by
  have tolerated : ∀ reply, fatal (.command (lit "mount") hostArgs [],.ok reply) = false := by
    intro reply
    simp [fatal]
  refine .bind (Goes.forget (must_goes lasting (fun _ unbroken _ => needs_ordinary rfl unbroken) fun _ => rfl)) fun _ => ?_
  exact .bind (expect_goes lasting (fun _ unbroken _ => needs_ordinary rfl unbroken) tolerated rfl) fun _ =>
    .pure fun log known => ⟨known.1,known.2.1,done_last known.2.2 known.1⟩

include lasting in
theorem kcliRead_goes (met : ∀ log, know log → Mounted log ∧ ∃ hasNet, Equipped hasNet log) :
    Goes guest know (kcliRead guest) fun kcliArgs log => know log ∧ Read kcliArgs log := by
  have needed : ∀ log, Unbroken log → know log → Needs guest (.read (lit "/proc/cmdline")) log :=
    fun log unbroken known => ⟨fun _ => unbroken,nofun,fun _ => met log known,nofun,nofun⟩
  refine .bind (must_goes lasting needed fun _ => rfl) fun file => ?_
  cases parsed : kcliParse file.data with
  | error e => exact .fail fun _ _ => trivial
  | ok kcliArgs => exact .pure fun log known => ⟨known.1,known.2.1,file,known.2.2,parsed⟩

theorem hostnameOf_split (given : kcliArgs.rapidoHostname = some hd) (split : splitOnce '.' hd = some (h,d)) (n : Str) :
    h = hostnameOf kcliArgs n := by
  have whole := splitOnce_eq split
  have before := splitOnce_before split
  have front : hd.takeWhile (· != '.') = h := by
    rw [whole,List.takeWhile_append_of_pos]
    · simp
    · intro c inside
      simp only [bne_iff_ne,ne_eq]
      rintro rfl
      exact before inside
  rw [hostnameOf,given]
  exact front.symm

theorem splitOnce_absent (whole : splitOnce c s = none) : c ∉ s := by
  induction s with
  | nil => exact List.not_mem_nil
  | cons d rest ih =>
    unfold splitOnce at whole
    split at whole
    · cases whole
    · rename_i other
      rintro (_ | ⟨_,later⟩)
      · exact other rfl
      · exact ih (Option.map_eq_none_iff.mp whole) later

theorem hostnameOf_whole (given : kcliArgs.rapidoHostname = some hd) (whole : splitOnce '.' hd = none) (n : Str) :
    hd = hostnameOf kcliArgs n := by
  have absent := splitOnce_absent whole
  rw [hostnameOf,given]
  refine (List.takeWhile_eq_self_iff.mpr fun c inside => ?_).symm
  simp only [bne_iff_ne,ne_eq]
  rintro rfl
  exact absent inside

theorem unwrapVmNum_some (vm : kcliArgs.rapidoVmNum = some n) : unwrapVmNum kcliArgs = pure n := by rw [unwrapVmNum,vm]

include lasting in
theorem chooseHostname_goes (vm : kcliArgs.rapidoVmNum = some n) : Goes guest know (chooseHostname guest kcliArgs)
    fun hostname log => know log ∧ hostname = hostnameOf kcliArgs n := by
  unfold chooseHostname
  split
  · rename_i none
    have name : "rapido".toList ++ n = hostnameOf kcliArgs n := by rw [hostnameOf,none]
    rw [unwrapVmNum_some vm]
    exact .pure_bind (.pure fun log known => ⟨known.1,known.2,name⟩)
  · rename_i hd given
    split
    · rename_i h d split
      refine .bind (must_goes lasting (fun _ unbroken _ => needs_ordinary rfl unbroken) fun _ => rfl) fun _ => ?_
      exact .pure fun log known => ⟨known.1,known.2.1,hostnameOf_split given split n⟩
    · rename_i whole
      exact .pure fun log known => ⟨known.1,known.2,hostnameOf_whole given whole n⟩

include lasting in
theorem initHostname_goes (vm : kcliArgs.rapidoVmNum = some n) : Goes guest know (initHostname guest kcliArgs)
    fun hostname log => know log ∧ hostname = hostnameOf kcliArgs n ∧ Hostnamed hostname log := by
  refine .bind (chooseHostname_goes lasting vm) fun hostname => ?_
  have lasts : Lasting fun log => know log ∧ hostname = hostnameOf kcliArgs n := .and lasting (.const _)
  refine .bind (must_goes lasts (fun _ unbroken _ => needs_ordinary rfl unbroken) fun _ => rfl) fun _ => ?_
  exact .pure fun log known => ⟨known.1,known.2.1.1,known.2.1.2,done_last known.2.2 known.1⟩

theorem matched_lasting (n : Str) (pair : Str × Str) : Lasting (Matched n pair) := .or (done_lasting _) (.some fun _ => .mem _)

include lasting in
theorem macAppend_goes (n : Str) (pair : Str × Str) :
    Goes guest know (macAppend guest n pair.1 pair.2) fun _ log => know log ∧ Matched n pair log := by
  refine .bind (ask_answered fun _ unbroken _ => needs_ordinary rfl unbroken) fun outcome => ?_
  cases outcome with
  | error e =>
    refine .pure fun log answered => ?_
    obtain ⟨unbroken,known,inside⟩ := answered.fine lasting rfl
    exact ⟨unbroken,known,.inr ⟨e,inside⟩⟩
  | ok file =>
    have appended : Goes guest know (must guest (.append (tapNetwork n pair.1) (macMatch pair.2))) fun reply log =>
        know log ∧ (.append (tapNetwork n pair.1) (macMatch pair.2),.ok reply) ∈ log :=
      must_goes lasting (fun _ unbroken _ => needs_ordinary rfl unbroken) fun _ => rfl
    refine .bind (appended.weaken (fun log answered => ?_) fun _ _ known => known) fun _ => ?_
    · obtain ⟨unbroken,known,_⟩ := answered.fine lasting rfl
      exact ⟨unbroken,known⟩
    · exact .pure fun log known => ⟨known.1,known.2.1,.inl (done_last known.2.2 known.1)⟩

include lasting in
theorem createAppend_goes (path text : List UInt8) :
    Goes guest know (createAppend guest path text) fun _ log => know log ∧ Done (.append path text) log := by
  refine .bind (Goes.forget (must_goes lasting (fun _ unbroken _ => needs_ordinary rfl unbroken) fun _ => rfl)) fun _ => ?_
  refine .bind (must_goes lasting (fun _ unbroken _ => needs_ordinary rfl unbroken) fun _ => rfl) fun _ => ?_
  exact .pure fun log known => ⟨known.1,known.2.1,done_last known.2.2 known.1⟩

theorem networked_lasting (guest : Guest) (kcliArgs : KcliArgs) (n : Str) : Lasting (Networked guest kcliArgs n) :=
  .and (done_lasting _) (.and (.every fun _ => .imp (matched_lasting _ _)) (done_lasting _))

include lasting in
theorem initNetConf_goes (vm : kcliArgs.rapidoVmNum = some n) :
    Goes guest know (initNetConf guest kcliArgs) fun _ log => know log ∧ Networked guest kcliArgs n log := by
  have linked : Goes guest know (must guest (.symlink (vmNetdir n) (lit "/etc/systemd/network"))) fun _ log =>
      know log ∧ Done (.symlink (vmNetdir n) (lit "/etc/systemd/network")) log :=
    (must_goes lasting (fun _ unbroken _ => needs_ordinary rfl unbroken) fun _ => rfl).weaken (fun _ known => known)
      fun _ log known => ⟨known.1,known.2.1,done_last known.2.2 known.1⟩
  have links := Lasting.and lasting (done_lasting (.symlink (vmNetdir n) (lit "/etc/systemd/network")))
  have matched : Lasting fun log => (know log ∧ Done (.symlink (vmNetdir n) (lit "/etc/systemd/network")) log) ∧
      ∀ pair, pair ∈ tapMacs guest kcliArgs → Matched n pair log := .and links (.every fun _ => .imp (matched_lasting n _))
  unfold initNetConf
  rw [unwrapVmNum_some vm]
  refine .pure_bind (.bind linked fun _ => .bind (forEach_goes links (matched_lasting n) fun pair _ know lasting =>
    macAppend_goes lasting n pair) fun _ => .bind (createAppend_goes matched _ _) fun _ => ?_)
  refine (createAppend_goes (.and matched (done_lasting _)) _ _).weaken (fun _ known => known) ?_
  rintro _ log ⟨unbroken,⟨⟨⟨known,link⟩,matched⟩,lo⟩,_⟩
  exact ⟨unbroken,known,link,matched,lo⟩

include lasting in
theorem writeMachineId_goes (systemdMachineId : Option Str) : Goes guest know (writeMachineId guest systemdMachineId) fun _ log =>
    know log ∧ ∃ mid, systemdMachineId = some mid ∧ Done (.write (lit "/etc/machine-id") (Utf8.encode mid)) log := by
  cases systemdMachineId with
  | none => exact .fail fun _ _ => trivial
  | some mid =>
    refine .bind (must_goes lasting (fun _ unbroken _ => needs_ordinary rfl unbroken) fun _ => rfl) fun _ => ?_
    exact .pure fun log known => ⟨known.1,known.2.1,mid,rfl,done_last known.2.2 known.1⟩

include lasting in
theorem initNetService_goes (kcliArgs : KcliArgs) :
    Goes guest know (initNetService guest kcliArgs.systemdMachineId) fun _ log => know log ∧ Online kcliArgs log := by
  have identified := Lasting.and lasting (.some fun mid => .and (.const (kcliArgs.systemdMachineId = some mid))
    (done_lasting (.write (lit "/etc/machine-id") (Utf8.encode mid))))
  have udevd := Lasting.and identified (done_lasting (.command (lit "/usr/lib/systemd/systemd-udevd") [lit "--daemon"] []))
  have networkd := Lasting.and udevd (done_lasting (.command (lit "setsid") [lit "--fork",lit "/usr/lib/systemd/systemd-networkd"] []))
  refine .bind (writeMachineId_goes lasting _) fun _ => .bind (runCommand_goes identified rfl) fun _ => ?_
  refine .bind (Goes.forget (must_goes udevd (fun _ unbroken _ => needs_ordinary rfl unbroken) fun _ => rfl)) fun net => ?_
  refine .bind (Goes.forget (runCommand_goes udevd rfl)) fun _ => ?_
  refine .bind (runCommand_goes udevd rfl) fun _ => (runCommand_goes networkd rfl).weaken (fun _ known => known) ?_
  rintro _ log ⟨unbroken,⟨⟨⟨known,mid⟩,udevd⟩,networkd⟩,online⟩
  exact ⟨unbroken,known,mid,udevd,networkd,online⟩

theorem configured_lasting (conf : Map) : Lasting (Configured conf) := .some fun _ => .and (.mem _) (.const _)
theorem found_lasting (hasNet : Bool) : Lasting (Found hasNet) := .some fun _ => .and (.mem _) (.const _)
theorem mounted_lasting : Lasting Mounted := .every fun _ => .imp (done_lasting _)
theorem loaded_lasting (kmods : List Str) : Lasting (Loaded kmods) := .imp (done_lasting _)
theorem shared_lasting (conf : Map) : Lasting (Shared conf) := .imp (done_lasting _)
theorem equipped_lasting (hasNet : Bool) : Lasting (Equipped hasNet) :=
  .some fun conf => .and (configured_lasting conf) (.and (found_lasting hasNet) (.and (loaded_lasting _) (shared_lasting conf)))
theorem read_lasting (kcliArgs : KcliArgs) : Lasting (Read kcliArgs) := .some fun _ => .and (.mem _) (.const _)
theorem online_lasting (kcliArgs : KcliArgs) : Lasting (Online kcliArgs) :=
  .and (.some fun _ => .and (.const _) (done_lasting _)) (.and (done_lasting _) (.and (done_lasting _) (done_lasting _)))

theorem informed_lasting (hasNet : Bool) (kcliArgs : KcliArgs) : Lasting (Informed hasNet kcliArgs) :=
  fun log entry known => ⟨mounted_lasting log entry known.mounted,equipped_lasting hasNet log entry known.equipped,
    read_lasting kcliArgs log entry known.told⟩

theorem prepared_lasting (guest : Guest) (hasNet : Bool) (kcliArgs : KcliArgs) (n : Str) : Lasting (Prepared guest hasNet kcliArgs n) :=
  fun log entry ready => ⟨informed_lasting hasNet kcliArgs log entry ready.toInformed,ready.numbered,
    done_lasting _ log entry ready.named,fun some => networked_lasting guest kcliArgs n log entry (ready.networked some)⟩

theorem exec_needs (unbroken : Unbroken log) (ready : Prepared guest hasNet kcliArgs n log) :
    Needs guest (.exec SYSTEMD_BIN_PATH (("DRACUT_SYSTEMD",lit "1") :: envsOf (hostnameOf kcliArgs n) kcliArgs)) log := by
  refine ⟨fun _ => unbroken,by rintro _ _ ⟨⟩,by rintro ⟨⟩,?_,by rintro _ _ ⟨⟩⟩
  rintro _ ⟨⟩
  exact ⟨hasNet,kcliArgs,n,ready,rfl⟩

theorem spawn_needs (unbroken : Unbroken log) (ready : Prepared guest hasNet kcliArgs n log) (online : hasNet = true → Online kcliArgs log) :
    Needs guest (.spawn (lit "setsid") shellArgs (envsOf (hostnameOf kcliArgs n) kcliArgs)) log := by
  refine ⟨fun _ => unbroken,by rintro _ _ ⟨⟩,by rintro ⟨⟩,by rintro _ ⟨⟩,?_⟩
  rintro _ _ ⟨⟩
  exact ⟨hasNet,kcliArgs,n,ready,online,rfl⟩

theorem initStart_goes (hasNet hasSystemd : Bool) (kcliArgs : KcliArgs) (n : Str) :
    Goes guest (Prepared guest hasNet kcliArgs n) (initStart guest hasNet hasSystemd kcliArgs (hostnameOf kcliArgs n)) fun _ _ => True := by
  have lasting := prepared_lasting guest hasNet kcliArgs n
  unfold initStart
  split
  · refine .bind (ask_answered fun _ => exec_needs) fun outcome => ?_
    cases outcome with
    | ok reply =>
      refine .fail fun log answered => ?_
      obtain ⟨front,rfl,_⟩ := answered
      exact ⟨front,_,reply,rfl⟩
    | error e => exact .fail fun log answered => answered.ended rfl
  · have online : Goes guest (Prepared guest hasNet kcliArgs n)
        (Eff.runIf (hasNet = true) (initNetService guest kcliArgs.systemdMachineId)) fun _ log =>
          Prepared guest hasNet kcliArgs n log ∧ (hasNet = true → Online kcliArgs log) := by
      refine .runIf (fun net => ?_) fun none log known => ⟨known.1,known.2,fun net => absurd net none⟩
      exact (initNetService_goes lasting kcliArgs).weaken (fun _ known => known) fun _ log known => ⟨known.1,known.2.1,fun _ => known.2.2⟩
    have lasts : Lasting fun log => Prepared guest hasNet kcliArgs n log ∧ (hasNet = true → Online kcliArgs log) :=
      .and lasting (.imp (online_lasting kcliArgs))
    have met : ∀ log, Unbroken log → Prepared guest hasNet kcliArgs n log ∧ (hasNet = true → Online kcliArgs log) →
        Needs guest (.spawn (lit "setsid") shellArgs (envsOf (hostnameOf kcliArgs n) kcliArgs)) log :=
      fun _ unbroken ready => spawn_needs unbroken ready.1 ready.2
    refine .bind online fun _ => .bind (Goes.forget (expect_goes lasts met (fun _ => rfl) rfl)) fun _ => ?_
    refine .bind (ask_answered fun _ unbroken _ => needs_ordinary rfl unbroken) fun outcome => ?_
    cases outcome with
    | error e => exact .fail fun _ _ => trivial
    | ok reply => exact .pure fun log answered => ⟨(answered.fine lasts rfl).1,trivial⟩

end rules

theorem initTold_goes (guest : Guest) (hasNet hasSystemd : Bool) (kcliArgs : KcliArgs) :
    Goes guest (Informed hasNet kcliArgs) (initTold guest hasNet hasSystemd kcliArgs) fun _ _ => True := by
  have informed := informed_lasting hasNet kcliArgs
  have numbered : Goes guest (Informed hasNet kcliArgs) (Eff.runIf (kcliArgs.rapidoVmNum = none) (.fail (.error (.ofKind .invalidInput))))
      fun _ log => Informed hasNet kcliArgs log ∧ kcliArgs.rapidoVmNum ≠ none :=
    .runIf (fun _ => .fail fun _ _ => trivial) fun some _ known => ⟨known.1,known.2,some⟩
  refine .bind numbered fun _ => ?_
  cases vm : kcliArgs.rapidoVmNum with
  | none => exact ⟨fun _ _ _ known => absurd rfl known.2.2.2,fun _ _ _ known => absurd rfl known.2.2.2⟩
  | some n =>
    have named : Goes guest (Informed hasNet kcliArgs) (initHostname guest kcliArgs) fun hostname log =>
        Informed hasNet kcliArgs log ∧ hostname = hostnameOf kcliArgs n ∧ Hostnamed hostname log := initHostname_goes informed vm
    refine .bind (named.weaken (fun _ known => ⟨known.1,known.2.1⟩) fun _ _ known => known) fun hostname => ?_
    have lasts : Lasting fun log => Informed hasNet kcliArgs log ∧ hostname = hostnameOf kcliArgs n ∧ Hostnamed hostname log :=
      .and informed (.and (.const _) (done_lasting _))
    have networked : Goes guest (fun log => Informed hasNet kcliArgs log ∧ hostname = hostnameOf kcliArgs n ∧ Hostnamed hostname log)
        (Eff.runIf (hasNet = true) (initNetConf guest kcliArgs)) fun _ log =>
          Prepared guest hasNet kcliArgs n log ∧ hostname = hostnameOf kcliArgs n := by
      refine .runIf (fun _ => (initNetConf_goes lasts vm).weaken (fun _ known => known) ?_) ?_
      · rintro _ log ⟨unbroken,⟨known,rfl,named⟩,networked⟩
        exact ⟨unbroken,⟨known,vm,named,fun _ => networked⟩,rfl⟩
      · rintro none log ⟨unbroken,known,rfl,named⟩
        exact ⟨unbroken,⟨known,vm,named,fun some => absurd some none⟩,rfl⟩
    refine .bind networked fun _ => ?_
    by_cases same : hostname = hostnameOf kcliArgs n
    · subst same
      exact (initStart_goes hasNet hasSystemd kcliArgs n).weaken (fun _ known => ⟨known.1,known.2.1⟩) fun _ _ known => known
    · exact ⟨fun _ _ _ known => absurd known.2.2.2 same,fun _ _ _ known => absurd known.2.2.2 same⟩

theorem initMain_goes (guest : Guest) : Goes guest (fun _ => True) (initMain guest) fun _ _ => True := by
  refine .bind (confRead_goes (.const True)) fun conf => ?_
  have configured := Lasting.and (.const True) (configured_lasting conf)
  refine .bind (stat_goes configured _ statDir) fun hasNet => ?_
  have found := Lasting.and configured (found_lasting hasNet)
  refine .bind (Goes.forget (stat_goes found _ statFile)) fun hasSystemd => .bind (initMount_goes found _) fun _ => ?_
  have mounted := Lasting.and found mounted_lasting
  refine .bind (kmodsLoad_goes mounted (fun _ known => known.2) _) fun _ => ?_
  have loaded := Lasting.and mounted (loaded_lasting (kmodsOf conf hasNet))
  have shares : Goes guest (fun log => (((True ∧ Configured conf log) ∧ Found hasNet log) ∧ Mounted log) ∧ Loaded (kmodsOf conf hasNet) log)
      (Eff.runIf ((conf "VIRTFS_SHARE_PATH".toList).isSome = true) (mountHost guest)) fun _ log =>
        ((((True ∧ Configured conf log) ∧ Found hasNet log) ∧ Mounted log) ∧ Loaded (kmodsOf conf hasNet) log) ∧ Shared conf log := by
    refine .runIf (fun _ => ?_) fun none log known => ⟨known.1,known.2,fun some => absurd some none⟩
    exact (mountHost_goes loaded).weaken (fun _ known => known) fun _ log known => ⟨known.1,known.2.1,fun _ => known.2.2⟩
  have shared := Lasting.and loaded (shared_lasting conf)
  refine .bind shares fun _ => .bind (kcliRead_goes shared ?_) fun kcliArgs => ?_
  · rintro log ⟨⟨⟨⟨⟨_,configured⟩,found⟩,mounted⟩,loaded⟩,shared⟩
    exact ⟨mounted,hasNet,conf,configured,found,loaded,shared⟩
  · refine (initTold_goes guest hasNet hasSystemd kcliArgs).weaken ?_ fun _ _ known => known
    rintro log ⟨unbroken,⟨⟨⟨⟨⟨_,configured⟩,found⟩,mounted⟩,loaded⟩,shared⟩,told⟩
    exact ⟨unbroken,mounted,⟨conf,configured,found,loaded,shared⟩,told⟩

theorem initMain_ordered (ran : (initMain guest).run [] = (result,log)) : Ordered guest.answer (Needs guest) log := by
  have start : Ordered guest.answer (Needs guest) [] ∧ Unbroken [] ∧ True := ⟨.nil,nofun,trivial⟩
  cases result with
  | ok done => exact ((initMain_goes guest).ok [] done log start ran).1
  | error stop => exact ((initMain_goes guest).error [] stop log start ran).1

theorem initMain_front (split : ((initMain guest).run []).2 = front ++ (a,b) :: back) :
    Ordered guest.answer (Needs guest) front ∧ Needs guest a front := by
  have ordered := initMain_ordered (Prod.mk.eta (p:=(initMain guest).run [])).symm
  rw [split] at ordered
  exact ⟨ordered.front,(ordered front a b back rfl).2⟩

end Rapido.GuestInit

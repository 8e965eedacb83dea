import Rapido.CutArguments
import Rapido.VmAlignment

-- src/bin/rapido-cut.rs: main from the command line to the finished image.
namespace Rapido.Cut
open UnixPath Cpio Text KvConf Eff Newc

-- env::var
inductive EnvVar where
  | present (value : Str)
  | notPresent
  | notUnicode
deriving DecidableEq, Repr

-- What rapido-cut is started with.
structure Session extends Host where
  -- env::args() without the name of the binary
  args : List Str
  rapidoConf : EnvVar
  -- opening a file to write, which creates it or makes it empty
  create : Path → Except IoError Unit

def RAPIDO_CONF_PATH : Str := "rapido.conf".toList

-- src/lib.rs
def hostRapidoConfOpen (fs : FileSystem) (rapidoConf : EnvVar) (rapidoConfPath : Str) : Except IoError ((Metadata × List UInt8) × Path) :=
  match rapidoConf with
  | .present c => match fs.fileOpen (Utf8.encode c) with
    | .error e => .error (if e.kind = .notFound then ⟨.invalidInput,"RAPIDO_CONF missing at " ++ String.ofList c⟩ else e)
    | .ok file => .ok (file,Utf8.encode c)
  | .notPresent => match fs.fileOpen (Utf8.encode rapidoConfPath) with
    | .error e => .error e
    | .ok file => .ok (file,Utf8.encode rapidoConfPath)
  | .notUnicode => .error (.ofKind .invalidInput)

-- kv_conf_process_append on the bytes of a file: read_line fails on a line that
-- is not UTF-8, after the lines before it.
def appendByteLines (linenum : Nat) (buffer : Str) (map : Map) : List (List UInt8) → Except IoError Unit × Map
  | [] => match kvReadLine linenum [] buffer with
    | .error e => (.error e,map)
    | .ok _ => (.ok (),map)
  | bytes :: rest => match Utf8.decode bytes with
    | none => (.error ⟨.invalidData,"stream did not contain valid UTF-8"⟩,map)
    | some line => match kvReadLine linenum [line] buffer with
      | .error e => (.error e,map)
      | .ok (_,_,buffer) => match kvProcess buffer map with
        | (.error e,_) => (.error (kvFault linenum e),map)
        | (.ok (some (k,v)),buffer) => appendByteLines (linenum+1) buffer (map.insert k v) rest
        | (.ok none,buffer) => appendByteLines (linenum+1) buffer map rest

def kvConfFileAppend (bytes : List UInt8) (map : Map) : Except IoError Unit × Map := appendByteLines 1 [] map (festLines [] bytes)

-- The output file that main has opened, beside the state of the gather functions.
structure Progress where
  cut : State
  output : Option Path := none

abbrev Cutting := Eff IoError Progress

def onState (act : Gather α) : Cutting α := ⟨fun s => ((act.run s.cut).1,{s with cut:=(act.run s.cut).2})⟩

@[simp] theorem onState_run (act : Gather α) (s : Progress) :
    (onState act).run s = ((act.run s.cut).1,{s with cut:=(act.run s.cut).2}) := rfl

def cpioOutOpen (session : Session) (argsOut : Option Path) (conf : Map) : Cutting Unit := do
  let p ← match argsOut with
    | some p => pure p
    | none => match conf "DRACUT_OUT".toList with
      | some p => pure (Utf8.encode p)
      | none => .fail ⟨.panic,"called `Option::unwrap()` on a `None` value"⟩
  Eff.ofExcept (session.create p)
  Eff.update fun s => {s with output:=some p}

-- rapido.conf with the file it was read from, once the output is open.
def confOpen (session : Session) (argsOut : Option Path) : Cutting (Map × Option (Metadata × List UInt8)) :=
  match hostRapidoConfOpen session.toFileSystem session.rapidoConf RAPIDO_CONF_PATH with
  | .error e =>
    if e.kind = .notFound then do
      cpioOutOpen session argsOut confDefaults
      return (confDefaults,none)
    else .fail e
  | .ok (file,_) => do
    -- cutMain makes the same metadata again
    let _ ← onState (archiveMd file.1)
    match kvConfFileAppend file.2 confDefaults with
    | (.error e,_) => .fail e
    | (.ok (),conf) => do
      cpioOutOpen session argsOut conf
      return (conf,some file)

def main (session : Session) (fuel : Nat) : Cutting Unit :=
  match argsProcess session.toFileSystem session.args with
  | .error .printHelp => pure ()
  | .error .panic => .fail ⟨.panic,"args_process()"⟩
  | .error e => .fail ⟨.invalidInput,e.display⟩
  | .ok argsState => do
    let (conf,file) ← confOpen session argsState.cpioOutputArg
    onState (cutMain session.toHost file conf fuel argsState.manifests)

def beginning : Progress := {cut:={archive:=.new (Vm.cutProps 4096)}}

-- rapido.conf as it was found, or the defaults where there is none.
inductive Configured (session : Session) : Map → Option (Metadata × List UInt8) → Prop where
  | defaults (missing : hostRapidoConfOpen session.toFileSystem session.rapidoConf RAPIDO_CONF_PATH = .error e)
      (kind : e.kind = .notFound) : Configured session confDefaults none
  | read (found : hostRapidoConfOpen session.toFileSystem session.rapidoConf RAPIDO_CONF_PATH = .ok (file,p))
      (described : ArchiveMd.fromMetadata beginning.cut.archive.state file.1 = .ok amd)
      (accepted : kvConfFileAppend file.2 confDefaults = (.ok (),conf)) : Configured session conf (some file)

-- The image goes to the last --output, or else to DRACUT_OUT.
def imagePath (argsState : ArgsState) (conf : Map) : Option Path :=
  argsState.cpioOutputArg.or ((conf "DRACUT_OUT".toList).map Utf8.encode)

-- Everything that has to hold before a file is created.
structure Plan (session : Session) (argsState : ArgsState) (conf : Map) (file : Option (Metadata × List UInt8)) (p : Path) : Prop where
  asked : argsProcess session.toFileSystem session.args = .ok argsState
  configured : Configured session conf file
  goes : imagePath argsState conf = some p
  created : session.create p = .ok ()

theorem insert_keeps (known : (map key).isSome = true) (k v : Str) : (KvConf.Map.insert map k v key).isSome = true := by
  unfold Map.insert
  by_cases same : key = k
  · rw [same,Function.update_self]
    rfl
  · rwa [Function.update_of_ne same]

theorem append_keeps (lines : List (List UInt8)) (linenum : Nat) (buffer : Str) (map : Map) (known : (map key).isSome = true)
    (ran : appendByteLines linenum buffer map lines = (result,final)) : (final key).isSome = true := by
  induction lines generalizing linenum buffer map with
  | nil =>
    unfold appendByteLines at ran
    split at ran
    · cases ran
      exact known
    · cases ran
      exact known
  | cons line rest ih =>
    unfold appendByteLines at ran
    split at ran
    · cases ran
      exact known
    · split at ran
      · cases ran
        exact known
      · split at ran
        · cases ran
          exact known
        · exact ih _ _ _ (insert_keeps known _ _) ran
        · exact ih _ _ _ known ran

-- DRACUT_OUT is one of the defaults, and rapido.conf can only change its value.
theorem configured_goes (configured : Configured session conf file) (argsState : ArgsState) : ∃ p, imagePath argsState conf = some p := by
  have default : (confDefaults "DRACUT_OUT".toList).isSome = true := by decide
  have known : (conf "DRACUT_OUT".toList).isSome = true := by
    cases configured with
    | defaults missing kind => exact default
    | read found described accepted => exact append_keeps _ _ _ _ default accepted
  obtain ⟨out,value⟩ := Option.isSome_iff_exists.mp known
  unfold imagePath
  rw [value]
  cases argsState.cpioOutputArg with
  | none => exact ⟨_,rfl⟩
  | some p => exact ⟨p,rfl⟩

theorem cpioOutOpen_run (goes : imagePath argsState conf = some p) (s : Progress) :
    (cpioOutOpen session argsState.cpioOutputArg conf).run s =
      (session.create p,if session.create p = .ok () then {s with output:=some p} else s) := by
  have chosen : cpioOutOpen session argsState.cpioOutputArg conf =
      (Eff.ofExcept (session.create p) >>= fun _ => Eff.update fun s => {s with output:=some p}) := by
    unfold imagePath at goes
    unfold cpioOutOpen
    cases given : argsState.cpioOutputArg with
    | some q =>
      rw [given] at goes
      cases goes
      rfl
    | none =>
      rw [given] at goes
      cases value : conf "DRACUT_OUT".toList with
      | none =>
        rw [value] at goes
        cases goes
      | some q =>
        rw [value] at goes
        cases goes
        rfl
  rw [chosen]
  cases made : session.create p with
  | error e => rfl
  | ok done => rfl

theorem Configured.unique (first : Configured session conf file) (second : Configured session conf' file') : conf = conf' ∧ file = file' := by
  cases first with
  | defaults missing kind =>
    cases second with
    | defaults _ _ => exact ⟨rfl,rfl⟩
    | read found _ _ => cases missing.symm.trans found
  | read found described accepted =>
    cases second with
    | defaults missing _ => cases missing.symm.trans found
    | read found' _ accepted' =>
      cases found.symm.trans found'
      cases accepted.symm.trans accepted'
      exact ⟨rfl,rfl⟩

theorem cpioOutOpen_then (goes : imagePath argsState conf = some p) (file : Option (Metadata × List UInt8)) :
    (cpioOutOpen session argsState.cpioOutputArg conf >>= fun _ => (pure (conf,file) : Cutting _)).run beginning =
      ((session.create p).map fun _ => (conf,file),if session.create p = .ok () then {beginning with output:=some p} else beginning) := by
  rw [bind_run,cpioOutOpen_run goes]
  cases session.create p with
  | error e => rfl
  | ok done => rfl

theorem archiveMd_early (described : ArchiveMd.fromMetadata beginning.cut.archive.state md = outcome) :
    (onState (archiveMd md)).run beginning = (outcome,beginning) := by
  unfold archiveMd
  rw [onState_run,read_bind_run,described]
  cases outcome with
  | error e => rfl
  | ok amd => rfl

-- The file is created once rapido.conf is accepted, and nothing happens before.
theorem confOpen_cases (session : Session) (argsState : ArgsState) :
    (∃ conf file p, Configured session conf file ∧ imagePath argsState conf = some p ∧
      (confOpen session argsState.cpioOutputArg).run beginning = ((session.create p).map fun _ => (conf,file),
        if session.create p = .ok () then {beginning with output:=some p} else beginning)) ∨
    ((∀ conf file, ¬Configured session conf file) ∧ ∃ e, (confOpen session argsState.cpioOutputArg).run beginning = (.error e,beginning)) := by
  unfold confOpen
  cases found : hostRapidoConfOpen session.toFileSystem session.rapidoConf RAPIDO_CONF_PATH with
  | error e =>
    dsimp only
    by_cases kind : e.kind = .notFound
    · obtain ⟨p,goes⟩ := configured_goes (.defaults found kind) argsState
      rw [if_pos kind]
      exact .inl ⟨_,_,p,.defaults found kind,goes,cpioOutOpen_then goes _⟩
    · rw [if_neg kind]
      refine .inr ⟨fun conf file configured => ?_,e,rfl⟩
      cases configured with
      | defaults missing notFound =>
        cases found.symm.trans missing
        exact kind notFound
      | read there _ _ => cases found.symm.trans there
  | ok pair =>
    obtain ⟨file,path⟩ := pair
    dsimp only
    cases described : ArchiveMd.fromMetadata beginning.cut.archive.state file.1 with
    | error e =>
      refine .inr ⟨fun conf other configured => ?_,e,bind_run_error (archiveMd_early described)⟩
      cases configured with
      | defaults missing _ => cases found.symm.trans missing
      | read there made _ =>
        cases found.symm.trans there
        cases described.symm.trans made
    | ok amd =>
      rw [bind_run_ok (archiveMd_early described)]
      cases accepted : kvConfFileAppend file.2 confDefaults with
      | mk result conf =>
        cases result with
        | error e =>
          refine .inr ⟨fun other read configured => ?_,e,rfl⟩
          cases configured with
          | defaults missing _ => cases found.symm.trans missing
          | read there _ fine =>
            cases found.symm.trans there
            cases accepted.symm.trans fine
        | ok done =>
          have configured : Configured session conf (some file) := .read found described accepted
          obtain ⟨p,goes⟩ := configured_goes configured argsState
          exact .inl ⟨_,_,p,configured,goes,cpioOutOpen_then goes _⟩

theorem main_refused (refused : argsProcess session.toFileSystem session.args = .error e) (fuel : Nat) :
    ((main session fuel).run beginning).2 = beginning := by
  unfold main
  rw [refused]
  cases e with
  | badSyntax _ | unknownArgument _ | expectedArgument _ | invalidValue _ _ | expectedValue _ | unexpectedValue _ | printHelp | panic => rfl

theorem main_asked (asked : argsProcess session.toFileSystem session.args = .ok argsState) (fuel : Nat) :
    (main session fuel).run beginning = (confOpen session argsState.cpioOutputArg >>= fun found =>
      onState (cutMain session.toHost found.2 found.1 fuel argsState.manifests)).run beginning := by
  unfold main
  rw [asked]

theorem main_planned (plan : Plan session argsState conf file p) (fuel : Nat) :
    (main session fuel).run beginning = (((cutMain session.toHost file conf fuel argsState.manifests).run beginning.cut).1,
      ⟨((cutMain session.toHost file conf fuel argsState.manifests).run beginning.cut).2,some p⟩) := by
  rw [main_asked plan.asked]
  rcases confOpen_cases session argsState with ⟨conf',file',p',configured,goes,ran⟩ | ⟨never,_⟩
  · obtain ⟨rfl,rfl⟩ := plan.configured.unique configured
    cases plan.goes.symm.trans goes
    rw [plan.created,if_pos rfl] at ran
    rw [bind_run_ok ran,onState_run]
  · exact absurd plan.configured (never _ _)

theorem main_unplanned (none : ∀ argsState conf file p, ¬Plan session argsState conf file p) (fuel : Nat) :
    ((main session fuel).run beginning).2 = beginning := by
  cases asked : argsProcess session.toFileSystem session.args with
  | error e => exact main_refused asked fuel
  | ok argsState =>
    rw [main_asked asked]
    rcases confOpen_cases session argsState with ⟨conf,file,p,configured,goes,ran⟩ | ⟨_,e,failed⟩
    · cases created : session.create p with
      | ok done => exact absurd ⟨asked,configured,goes,created⟩ (none argsState conf file p)
      | error e =>
        rw [created,if_neg nofun] at ran
        rw [bind_run_error ran]
    · rw [bind_run_error failed]

theorem main_output (session : Session) (fuel : Nat) (p : Path) :
    ((main session fuel).run beginning).2.output = some p ↔ ∃ argsState conf file, Plan session argsState conf file p := by
  constructor
  · intro opened
    by_contra unplanned
    have never : ∀ argsState conf file q, ¬Plan session argsState conf file q := by
      intro argsState conf file q plan
      rw [main_planned plan fuel] at opened
      cases opened
      exact unplanned ⟨argsState,conf,file,plan⟩
    rw [main_unplanned never fuel] at opened
    cases opened
  · rintro ⟨_,_,_,plan⟩
    rw [main_planned plan fuel]

-- A file is created, or emptied, just when the command line and rapido.conf are
-- accepted and it can be opened. Until then nothing is archived, and from then
-- on main is cutMain on what was asked for.
theorem main_opens (session : Session) (fuel : Nat) :
    (∀ p, ((main session fuel).run beginning).2.output = some p ↔ ∃ argsState conf file, Plan session argsState conf file p) ∧
    (((main session fuel).run beginning).2.output = none → ((main session fuel).run beginning).2 = beginning) ∧
    ∀ argsState conf file p, Plan session argsState conf file p →
      (main session fuel).run beginning = (((cutMain session.toHost file conf fuel argsState.manifests).run beginning.cut).1,
        ⟨((cutMain session.toHost file conf fuel argsState.manifests).run beginning.cut).2,some p⟩) := by
  refine ⟨main_output session fuel,fun closed => ?_,fun _ _ _ _ plan => main_planned plan fuel⟩
  refine main_unplanned (fun argsState conf file p plan => ?_) fuel
  rw [main_planned plan fuel] at closed
  cases closed

-- coreHost with a rapido.conf of one line.
def confFile : Metadata × List UInt8 := ({plainMd (S_IFREG ||| 0o644) 1 with len:=20},asPath "KERNEL_RELEASE=6.17\n")
def sampleSession : Session := {coreHost with
  fileOpen := fun p => if p = Utf8.encode RAPIDO_CONF_PATH then .ok confFile else .ok (emptyMd,[])
  args := ["--output".toList,"old".toList,"--output=img".toList]
  rapidoConf := .notPresent
  create := fun _ => .ok ()
  cwd_absolute := root_absolute
  readDir_names := @lists_nothing
  canonicalize_absolute := @resolves_nothing}

def sampleAsked : ArgsState := {cpioOutputArg:=some (asPath "img")}
def sampleConf : Map := (kvConfFileAppend confFile.2 confDefaults).2

def confAmd : ArchiveMd := ⟨1,S_IFREG ||| 0o644,0,0,0,0,0,20⟩

theorem confFile_described : ArchiveMd.fromMetadata beginning.cut.archive.state confFile.1 = .ok confAmd := by decide +kernel

theorem confFile_found : hostRapidoConfOpen sampleSession.toFileSystem .notPresent RAPIDO_CONF_PATH =
    .ok (confFile,Utf8.encode RAPIDO_CONF_PATH) := by
  have opened : sampleSession.fileOpen (Utf8.encode RAPIDO_CONF_PATH) = .ok confFile := by
    dsimp only [sampleSession]
    rw [if_pos rfl]
  unfold hostRapidoConfOpen
  rw [opened]

theorem confFile_accepted : kvConfFileAppend confFile.2 confDefaults = (.ok (),sampleConf) := by
  have accepted : (kvConfFileAppend confFile.2 confDefaults).1 = .ok () := by decide +kernel
  unfold sampleConf
  rw [← accepted]

theorem session_planned : Plan sampleSession sampleAsked sampleConf (some confFile) (asPath "img") where
  asked := by decide +kernel
  configured := .read confFile_found confFile_described confFile_accepted
  goes := by rw [imagePath,sampleAsked,Option.some_or]
  created := by dsimp only [sampleSession]

theorem session_opens : ((main sampleSession 9).run beginning).2.output = some (asPath "img") ∧
    (main sampleSession 9).run beginning = (((cutMain sampleSession.toHost (some confFile) sampleConf 9 sampleAsked.manifests).run beginning.cut).1,
      ⟨((cutMain sampleSession.toHost (some confFile) sampleConf 9 sampleAsked.manifests).run beginning.cut).2,some (asPath "img")⟩) := by
  obtain ⟨opens,_,planned⟩ := main_opens sampleSession 9
  exact ⟨(opens _).mpr ⟨_,_,_,session_planned⟩,planned _ _ _ _ session_planned⟩

theorem populateDefaultSymlinks_keeps (stored : Stored bad inv) : Keeps bad inv populateDefaultSymlinks := by
  have link : ∀ p tgt, Keeps bad inv (symlinkUnseen p tgt) :=
    fun p tgt => .bind pathSeen_keeps fun _ => .runIf (archive_keeps stored)
  have sbin : Keeps bad inv sbinSymlink := by
    refine .bind pathSeen_keeps fun _ => ?_
    split
    · exact .bind pathSeen_keeps fun _ => .bind pathSeen_keeps fun _ => .runIf (archive_keeps stored)
    · exact archive_keeps stored
  have kmods : Keeps bad inv archiveKmodsSymlink := by
    refine .bind pathSeen_keeps fun _ => ?_
    split
    · exact archive_keeps stored
    · exact archive_keeps stored
  exact .bind (link _ _) fun _ => .bind (link _ _) fun _ => .bind sbin fun _ => kmods

-- The first entry is rapido.conf, as it is on the host or empty.
inductive ConfCall : Option (Metadata × List UInt8) → Call → Prop where
  | absent : ConfCall none (.path (asPath "/rapido.conf") CPIO_AMD_DEFAULT)
  | copied (described : ArchiveMd.fromMetadata beginning.cut.archive.state md = .ok amd) :
      ConfCall (some (md,bytes)) (.file (asPath "/rapido.conf") amd bytes)

theorem ConfCall.copy {file : Metadata × List UInt8} (first : ConfCall (some file) c)
    (described : ArchiveMd.fromMetadata beginning.cut.archive.state file.1 = .ok amd) : c = .file (asPath "/rapido.conf") amd file.2 := by
  cases first with
  | copied other => rw [Except.ok.inj (described.symm.trans other)]

theorem archiveRapidoConf_first (ran : (archiveRapidoConf file).run beginning.cut = (.ok (),t)) :
    ∃ c, ConfCall file c ∧ (archive c).run beginning.cut = (.ok (),t) := by
  unfold archiveRapidoConf at ran
  cases file with
  | none => exact ⟨_,.absent,ran⟩
  | some pair =>
    obtain ⟨md,bytes⟩ := pair
    obtain ⟨amd,m,made,rest⟩ := bind_ok.mp ran
    obtain ⟨_,_,⟨⟩,outcome⟩ := bind_ok.mp made
    obtain ⟨described,rfl⟩ := ofExcept_run_ok outcome
    exact ⟨_,.copied described,rest⟩

theorem Stable.and {inv other : State → Prop} (always : Stable (fun _ => False) inv) (stable : Stable bad other) :
    Stable bad fun s => inv s ∧ other s where
  archived := fun s c a both ran => ⟨always.archived s c a both.1 ran,stable.archived s c a both.2 ran⟩
  refused := fun s c e a both ran fine => ⟨always.refused s c e a both.1 ran id,stable.refused s c e a both.2 ran fine⟩
  inserted := fun s cs both => ⟨always.inserted s cs both.1,stable.inserted s cs both.2⟩
  missing := stable.missing
  needed := fun s names both => ⟨always.needed s names both.1,stable.needed s names both.2⟩
  kmods := fun s gk both => ⟨always.kmods s gk both.1,stable.kmods s gk both.2⟩
  autoruns := fun s idx both => ⟨always.autoruns s idx both.1,stable.autoruns s idx both.2⟩

-- What is stable holds until the trailer is written.
theorem cutMain_body (stable : Stable bad inv) (start : inv c) (first : (archiveRapidoConf file).run beginning.cut = (.ok (),c))
    (ran : (cutMain host file conf fuel fests).run beginning.cut = (.ok (),t)) : ∃ m, inv m ∧ (archive .trailer).run m = (.ok (),t) := by
  obtain ⟨_,_,conf,ran⟩ := bind_ok.mp ran
  cases first.symm.trans conf
  obtain ⟨_,m,parsed,ran⟩ := bind_ok.mp ran
  obtain ⟨_,r,sourced,ran⟩ := bind_ok.mp ran
  obtain ⟨_,a,elfs,ran⟩ := bind_ok.mp ran
  obtain ⟨_,b,kmods,ran⟩ := bind_ok.mp ran
  obtain ⟨_,d,links,ran⟩ := bind_ok.mp ran
  have source : Keeps bad inv (archiveRapidoRc host.toFileSystem) :=
    .bind .ofExcept fun ⟨_,_⟩ => .bind archiveMd_keeps fun _ => archive_keeps stable.toStored
  have atParsed := (manifestParse_keeps stable).ok _ _ m start parsed
  have atSourced := source.ok m _ r atParsed sourced
  have atElfs := (gatherArchiveElfs_keeps stable.steady).ok r _ a atSourced elfs
  have atKmods := (gatherArchiveKmods_keeps stable.steady).ok a _ b atElfs kmods
  exact ⟨d,(populateDefaultSymlinks_keeps stable.toStored).ok b _ d atKmods links,ran⟩

theorem wrote_short (ready : Aligned props) (limit : props.namesizeMax.toNat ≤ 4097) (wrote : Wrote props written ino calls entries) :
    ∀ e ∈ entries, e.name.length ≤ PATH_MAX + 1 := by
  induction wrote with
  | nil => exact nofun
  | @cons written ino c e calls entries described aligned rest ih =>
    intro other inside
    rcases List.mem_cons.mp inside with rfl | later
    · by_cases body : c = .trailer
      · subst body
        rw [described]
        decide
      · obtain ⟨_,_,_,_,narrow⟩ := described_name ready aligned limit body described
        exact narrow
    · exact ih other later

theorem entries_room (entries : List Entry) : entries.length ≤ (entries.flatMap Entry.encode).length := by
  rw [List.length_flatMap]
  refine (List.length_le_sum_of_one_le _ fun n inside => ?_).trans' (by rw [List.length_map])
  obtain ⟨e,_,rfl⟩ := List.mem_map.mp inside
  rw [Vm.length_encode,Vm.entryLen,NEWC_HDR_LEN]
  omega

-- An image that calls and a trailer have written is read back whole.
theorem image_read (ready : Aligned props) (limit : props.namesizeMax.toNat ≤ 4097) (wrote : Wrote props 0 ino calls entries)
    (bounded : (entries.flatMap Entry.encode ++ trailerEntry.encode).length < 2^63) :
    Lists (entries.flatMap Entry.encode ++ trailerEntry.encode) ((shown entries).map entOf) ∧
    Vm.vmResourcesGet (entries.flatMap Entry.encode ++ trailerEntry.encode) =
      some (Vm.scanNames .defaults false (entries.map Vm.visibleName)) := by
  have narrow := wrote_short ready limit wrote
  have whole : trailerEntry.encode ++ [] = trailerEntry.encode := List.append_nil _
  refine ⟨?_,Vm.loop_scans entries narrow _ _ _ _ ?_ rfl (Nat.zero_le _) bounded⟩
  · rw [← whole] at bounded ⊢
    exact encoded_lists [] entries narrow bounded
  · have room := entries_room entries
    rw [List.length_append]
    omega

theorem logged_image (ready : Aligned props) (logged : Logged (.new props) m) (trailed : Call.trailer.run.run m.archive = (.ok (),after)) :
    ∃ entries, Wrote props 0 props.initialIno m.archived entries ∧ after.out = entries.flatMap Entry.encode ++ trailerEntry.encode := by
  have fresh : Archive.new props = synced props props.initialIno [] := rfl
  unfold Logged at logged
  rw [fresh] at logged
  obtain ⟨entries,ino,wrote,last,aligned⟩ := runCalls_wrote ready rfl logged
  obtain ⟨total,_,trailer,⟨⟩⟩ := bind_ok.mp trailed
  rw [last] at trailer aligned
  have whole : (entries.flatMap Entry.encode).length % 4 = 0 := aligned
  rw [List.nil_append,archiveTrailer_synced whole] at trailer
  cases trailer
  exact ⟨entries,wrote,rfl⟩

theorem planned_cut (plan : Plan session argsState conf file p) (ran : (main session fuel).run beginning = (.ok (),t)) :
    (cutMain session.toHost file conf fuel argsState.manifests).run beginning.cut = (.ok (),t.cut) := by
  have planned := (main_planned plan fuel).symm.trans ran
  exact Prod.ext (congrArg (fun pair => pair.1) planned) (congrArg (fun pair => pair.2.cut) planned)

-- The calls grow from rapido.conf on and are what the image was written by.
theorem main_written (ran : (main session fuel).run beginning = (.ok (),t)) (opened : t.output = some p) :
    ∃ argsState conf file c calls entries, Plan session argsState conf file p ∧ ConfCall file c ∧
      t.cut.archived = c :: calls ++ [.trailer] ∧ Wrote (Vm.cutProps 4096) 0 (Vm.cutProps 4096).initialIno (c :: calls) entries ∧
      t.cut.archive.out = entries.flatMap Entry.encode ++ trailerEntry.encode := by
  obtain ⟨argsState,conf,file,plan⟩ := (main_output session fuel p).mp (by rw [ran]; exact opened)
  have cut := planned_cut plan ran
  obtain ⟨_,s,first,_⟩ := bind_ok.mp cut
  obtain ⟨c,confCall,started⟩ := archiveRapidoConf_first first
  have logged : Logged (.new (Vm.cutProps 4096)) s := (archive_keeps (logged_stable _).toStored).ok beginning.cut () s rfl started
  obtain ⟨m,⟨grown,written⟩,ended⟩ := cutMain_body ((grows_stable s).and (logged_stable _)) ⟨.refl s,logged⟩ first cut
  obtain ⟨_,_,rfl⟩ := archive_ran started
  obtain ⟨calls,front⟩ := grown.archived
  obtain ⟨after,trailed,finished⟩ := archive_ran ended
  obtain ⟨entries,wrote,image⟩ := logged_image ⟨rfl,rfl⟩ written trailed
  rw [finished]
  refine ⟨argsState,conf,file,c,calls,entries,plan,confCall,?_,?_,image⟩
  · rw [← front]
    rfl
  · rw [← front] at wrote
    exact wrote

-- A finished image holds rapido.conf first and then what was archived after it,
-- and rapido-vm takes its resources from just these names.
theorem main_image (ran : (main session fuel).run beginning = (.ok (),t)) (opened : t.output = some p)
    (bounded : t.cut.archive.out.length < 2^63) :
    ∃ argsState conf file c calls entries, Plan session argsState conf file p ∧ ConfCall file c ∧
      t.cut.archived = c :: calls ++ [.trailer] ∧ Wrote (Vm.cutProps 4096) 0 (Vm.cutProps 4096).initialIno (c :: calls) entries ∧
      Lists t.cut.archive.out ((shown entries).map entOf) ∧
      Vm.vmResourcesGet t.cut.archive.out = some (Vm.scanNames .defaults false (entries.map Vm.visibleName)) := by
  obtain ⟨argsState,conf,file,c,calls,entries,plan,confCall,archived,wrote,image⟩ := main_written ran opened
  refine ⟨argsState,conf,file,c,calls,entries,plan,confCall,archived,wrote,?_⟩
  rw [image] at bounded ⊢
  exact image_read ⟨rfl,rfl⟩ (by decide) wrote bounded

theorem session_image : ∃ calls ents names, ((main sampleSession 9).run beginning).2.cut.archived =
      .file (asPath "/rapido.conf") confAmd confFile.2 :: calls ++ [.trailer] ∧
    Lists ((main sampleSession 9).run beginning).2.cut.archive.out ents ∧
    Vm.vmResourcesGet ((main sampleSession 9).run beginning).2.cut.archive.out = some (Vm.scanNames .defaults false names) := by
  have facts : ((main sampleSession 9).run beginning).1 = .ok () ∧
      ((main sampleSession 9).run beginning).2.output = some (asPath "img") ∧
      ((main sampleSession 9).run beginning).2.cut.archive.out.length < 2^63 := by decide +kernel
  obtain ⟨argsState,conf,file,c,calls,entries,plan,first,archived,_,listed,read⟩ := main_image (run_ok facts.1) facts.2.1 facts.2.2
  rw [(plan.configured.unique session_planned.configured).2] at first
  refine ⟨calls,(shown entries).map entOf,entries.map Vm.visibleName,?_,listed,read⟩
  rw [archived,first.copy confFile_described]

end Rapido.Cut

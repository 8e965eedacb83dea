import Rapido.CutInvariant
import Rapido.Inclusion

-- What a manifest stands for once its include lines are replaced.
namespace Rapido.Cut
open UnixPath Cpio Text KvConf Eff

-- A line handed to its handler, or one that is refused without one: it is not
-- UTF-8, too long, no known directive, or an include that cannot be opened.
inductive Step where
  | line (etype : Etype) (args : List Str)
  | refused (e : IoError)
deriving DecidableEq

-- The path of the manifest an include names.
def includePath (fs : FileSystem) (conf : Map) (name : Option Str) : Except IoError Path :=
  match manifestNameSub conf name with
  | .error e => .error e
  | .ok p => match pathStat fs (.manifest p) with
    | .error e => .error e
    | .ok got => .ok got.path

def openManifest (fs : FileSystem) (p : Path) : Except IoError Fest :=
  match fs.fileOpen p with
  | .error e => .error e
  | .ok (_,bytes) => .ok (festLines [] bytes)

def includeOutcome (fs : FileSystem) (conf : Map) (name : Option Str) : Except IoError Fest :=
  match includePath fs conf name with
  | .error e => .error e
  | .ok p => openManifest fs p

def directiveTurn (fs : FileSystem) (conf : Map) (etype : Etype) (args : List Str) : Inclusion.Turn (List UInt8) Step :=
  if etype = .includeManifest then
    match includeOutcome fs conf args[0]? with
    | .error e => .act (.refused e)
    | .ok fest => if args.drop 1 ≠ [] then .act (.refused (.ofKind .invalidInput)) else .splice fest
  else .act (.line etype args)

def lineTurn (fs : FileSystem) (conf : Map) (bytes : List UInt8) : Inclusion.Turn (List UInt8) Step :=
  match Utf8.decode bytes with
  | none => .act (.refused (.ofKind .brokenPipe))
  | some line =>
    if bytes.length > 16 * 1024 then .act (.refused (.ofKind .invalidInput))
    else match splitWhitespace line with
      | [] => .skip
      | word :: args =>
        if startsWith '#' word then .skip
        else match etypeOf word with
          | none => .act (.refused (.ofKind .unsupported))
          | some etype => directiveTurn fs conf etype args

def handleStep (host : Host) (conf : Map) (fuel : Nat) : Step → Gather Unit
  | .refused e => .fail e
  | .line etype args => do
    let (trail,_) ← directive host conf fuel etype args
    if trail ≠ [] then .fail (.ofKind .invalidInput) else pure ()

theorem manifestInclude_run (fs : FileSystem) (conf : Map) (name : Option Str) (s : State) :
    (manifestInclude fs conf name).run s = (includeOutcome fs conf name,s) := by
  unfold manifestInclude includeOutcome includePath
  cases manifestNameSub conf name with
  | error e => rfl
  | ok p =>
    rw [ofExcept_ok,pure_bind_run]
    dsimp only
    cases pathStat fs (.manifest p) with
    | error e => rfl
    | ok got =>
      rw [ofExcept_ok,pure_bind_run]
      dsimp only [openManifest]
      cases fs.fileOpen got.path <;> rfl

-- Only an include opens a manifest.
theorem directive_opens (other : etype ≠ .includeManifest)
    (ran : (directive host conf fuel etype args).run s = (.ok (trail,opened),t)) : opened = [] := by
  have nothing : Ensures (fun _ => True) (directive host conf fuel etype args) fun result _ => result.2 = [] := by
    cases etype with
    | includeManifest => exact absurd rfl other
    | dir => exact .bind Ensures.any fun _ => .pure fun _ _ => rfl
    | slink => exact .bind Ensures.any fun _ => .pure fun _ _ => rfl
    | file => exact .bind Ensures.any fun _ => .pure fun _ _ => rfl
    | bin => exact .bind Ensures.any fun _ => .bind Ensures.any fun _ => .pure fun _ _ => rfl
    | tryBin => exact .bind Ensures.any fun _ => .bind Ensures.any fun _ => .pure fun _ _ => rfl
    | kmod => exact .bind Ensures.any fun _ => .pure fun _ _ => rfl
    | tryKmod => exact .bind Ensures.any fun _ => .pure fun _ _ => rfl
    | autorun => exact .bind Ensures.any fun _ => .pure fun _ _ => rfl
    | tree => exact .bind Ensures.any fun _ => .pure fun _ _ => rfl
    | filter => exact .bind Ensures.any fun _ => .bind Ensures.any fun _ => .pure fun _ _ => rfl
  exact nothing.ok s _ t trivial ran

theorem directive_include (host : Host) (conf : Map) (fuel : Nat) (args : List Str) (s : State) :
    (directive host conf fuel .includeManifest args).run s = match includeOutcome host.toFileSystem conf args[0]? with
      | .error e => (.error e,s)
      | .ok fest => (.ok (args.drop 1,[fest]),s) := by
  unfold directive
  rw [bind_run,manifestInclude_run]
  cases includeOutcome host.toFileSystem conf args[0]? <;> rfl

-- The turn of the loop in the source is the turn of the general reader.
theorem festVisit_turn (host : Host) (conf : Map) (fuel : Nat) (fest : Fest) (rest : List Fest) (s : State) :
    (festVisit host conf fuel fest rest).run s =
      (Inclusion.visit (lineTurn host.toFileSystem conf) (handleStep host conf fuel) fest rest).run s := by
  cases fest with
  | nil => rfl
  | cons bytes lines =>
    unfold festVisit Inclusion.visit lineTurn
    dsimp only
    cases Utf8.decode bytes with
    | none => rfl
    | some line =>
      dsimp only
      by_cases long : bytes.length > 16 * 1024
      · rw [if_pos long,if_pos long]
        rfl
      · rw [if_neg long,if_neg long]
        unfold manifestParseOne
        cases splitWhitespace line with
        | nil => rfl
        | cons word args =>
          dsimp only
          by_cases comment : startsWith '#' word = true
          · rw [if_pos comment,if_pos comment]
            rfl
          · rw [if_neg comment,if_neg comment]
            cases etypeOf word with
            | none => rfl
            | some etype =>
              dsimp only
              by_cases included : etype = .includeManifest
              · subst included
                rw [directiveTurn,if_pos rfl,bind_run,bind_run,directive_include]
                cases includeOutcome host.toFileSystem conf args[0]? with
                | error e => rfl
                | ok fest =>
                  dsimp only
                  by_cases trail : args.drop 1 ≠ []
                  · rw [if_pos trail,if_pos trail]
                    rfl
                  · rw [if_neg trail,if_neg trail]
                    rfl
              · rw [directiveTurn,if_neg included]
                simp only [handleStep,bind_run]
                cases ran : (directive host conf fuel etype args).run s with
                | mk result t =>
                  cases result with
                  | error e => rfl
                  | ok pair =>
                    obtain ⟨trail,opened⟩ := pair
                    rw [directive_opens included ran]
                    dsimp only
                    by_cases left : trail ≠ []
                    · rw [if_pos left,if_pos left]
                      rfl
                    · rw [if_neg left,if_neg left]
                      rfl

theorem loop_turns (host : Host) (conf : Map) (limit fuel : Nat) (fests : List Fest) (s : State) :
    (Worklist.loop spent (festVisit host conf limit) fuel fests).run s =
      (Worklist.loop spent (Inclusion.visit (lineTurn host.toFileSystem conf) (handleStep host conf limit)) fuel fests).run s := by
  have same : festVisit host conf limit = Inclusion.visit (lineTurn host.toFileSystem conf) (handleStep host conf limit) := by
    funext fest rest
    have runs : (festVisit host conf limit fest rest).run =
        (Inclusion.visit (lineTurn host.toFileSystem conf) (handleStep host conf limit) fest rest).run :=
      funext (festVisit_turn host conf limit fest rest)
    exact congrArg Eff.mk runs
  rw [same]

-- Whatever manifest_parse has processed to the end expands.
theorem manifestParse_expands (ran : (manifestParse host conf fuel fests).run s = (.ok (),t)) :
    ∃ outs, List.Forall₂ (Inclusion.Expands (lineTurn host.toFileSystem conf)) fests.reverse outs ∧
      (Eff.forEach (handleStep host conf fuel) outs.flatten).run {s with autorunIdx:=0} = (.ok (),t) := by
  rw [manifestParse,update_bind_run,loop_turns] at ran
  exact Inclusion.loop_expands ran

-- The autorun counter
def Step.locations : Step → List Str
  | .line .autorun args => args
  | _ => []

theorem idx_steady (idx : UInt32) : Steady (fun _ => False) (fun s => s.autorunIdx = idx) where
  archived := fun _ _ _ same _ => same
  refused := fun _ _ _ _ same _ _ => same
  inserted := fun _ _ same => same
  missing := fun _ impossible => impossible.elim
  needed := fun _ _ same => same
  kmods := fun _ _ same => same

theorem readIdx_keeps {pre : State → Prop} : Ensures pre (Eff.read (·.autorunIdx) : Gather UInt32) fun _ => pre :=
  .read fun _ before => before

theorem manifestAutorun_counts :
    Ensures (fun s => s.autorunIdx = n) (manifestAutorun fs conf name) fun _ s => s.autorunIdx = n + 1 := by
  have stored := (idx_steady n).toStored
  refine Ensures.ofExcept_bind fun src _ => .bind readIdx_keeps fun idx => Ensures.ofExcept_bind fun dst _ => ?_
  refine .bind (Keeps.runIf (.bind (archive_keeps stored) fun _ => .bind (insertPath_keeps stored) fun _ => .pure)).ensures fun _ => ?_
  refine Ensures.ofExcept_bind fun ⟨md,bytes⟩ _ => .bind archiveMd_same fun amd => ?_
  exact .bind (archive_keeps stored).ensures fun _ => .update fun s same => congrArg (· + 1) same

theorem manifestAutorun_all (locations : List Str) (n : UInt32) :
    Ensures (fun s => s.autorunIdx = n) (Eff.forEach (fun location => manifestAutorun fs conf (some location)) locations)
      fun _ s => s.autorunIdx = n + .ofNat locations.length := by
  induction locations generalizing n with
  | nil => exact .pure fun s same => by rw [same]; exact (UInt32.add_zero n).symm
  | cons location rest ih =>
    refine .bind manifestAutorun_counts fun _ => (ih (n+1)).weaken (fun _ h => h) ?_
    intro _ s same
    rw [same,List.length_cons,UInt32.ofNat_add,UInt32.add_assoc,UInt32.add_comm 1]
    rfl

-- What a directive ensures, its line ensures.
theorem handleStep_line {pre post : State → Prop} (ensures : Ensures pre (directive host conf fuel etype args) fun _ => post) :
    Ensures pre (handleStep host conf fuel (.line etype args)) fun _ => post := by
  refine .bind ensures fun ⟨trail,_⟩ => ?_
  dsimp only
  split
  · exact .fail fun _ _ => trivial
  · exact .pure fun _ h => h

-- An autorun line is its locations one by one; on other lines there are none.
theorem handleStep_located {pre post : State → Prop} {step : Step}
    (located : Ensures pre (Eff.forEach (fun location => manifestAutorun host.toFileSystem conf (some location)) step.locations)
      fun _ => post)
    (others : ∀ etype args, step = .line etype args → etype ≠ .autorun →
      Ensures pre (directive host conf fuel etype args) fun _ => pre) :
    Ensures pre (handleStep host conf fuel step) fun _ => post := by
  cases step with
  | refused e => exact .fail fun _ _ => trivial
  | line etype args =>
    apply handleStep_line
    by_cases autorun : etype = .autorun
    · subst autorun
      refine .bind ?_ fun _ => .pure fun _ h => h
      refine .bind readIdx_keeps fun before => .bind located fun _ => ?_
      exact .bind readIdx_keeps fun after => .runIf (fun _ => .fail fun _ _ => trivial) fun _ _ h => h
    · have none : (Step.line etype args).locations = [] := by
        cases etype <;> first | rfl | exact absurd rfl autorun
      rw [none] at located
      exact (others etype args rfl autorun).weaken (fun _ h => h) fun _ s before => located.ok s () s before rfl

theorem handleStep_counts (step : Step) (n : UInt32) :
    Ensures (fun s => s.autorunIdx = n) (handleStep host conf fuel step)
      fun _ s => s.autorunIdx = n + .ofNat step.locations.length :=
  handleStep_located (manifestAutorun_all step.locations n) fun _ _ _ other => (directive_steady (idx_steady n) other).ensures

theorem handleSteps_counts (steps : List Step) (n : UInt32) :
    Ensures (fun s => s.autorunIdx = n) (Eff.forEach (handleStep host conf fuel) steps)
      fun _ s => s.autorunIdx = n + .ofNat (steps.flatMap Step.locations).length := by
  induction steps generalizing n with
  | nil => exact .pure fun s same => by rw [same]; exact (UInt32.add_zero n).symm
  | cons step rest ih =>
    refine .bind (handleStep_counts step n) fun _ => (ih _).weaken (fun _ h => h) ?_
    intro _ s same
    rw [same,List.flatMap_cons,List.length_append,UInt32.ofNat_add,UInt32.add_assoc]

-- The include graph: one manifest file has a line that includes another.
def includedBy (fs : FileSystem) (conf : Map) (line : List UInt8) : Option Path :=
  match (Utf8.decode line).bind lineDirective with
  | some (.includeManifest,args) => (includePath fs conf args[0]?).toOption
  | _ => none

def Opens (fs : FileSystem) (conf : Map) (p q : Path) : Prop :=
  ∃ fest, openManifest fs p = .ok fest ∧ q ∈ fest.filterMap (includedBy fs conf)

theorem lineTurn_splice {inner : Fest} (read : lineTurn fs conf line = .splice inner) :
    ∃ q, includedBy fs conf line = some q ∧ openManifest fs q = .ok inner := by
  unfold lineTurn at read
  split at read
  · cases read
  · rename_i text decoded
    split at read
    · cases read
    · split at read
      · cases read
      · rename_i word args words
        split at read
        · cases read
        · rename_i comment
          split at read
          · cases read
          · rename_i etype known
            unfold directiveTurn at read
            split at read
            · rename_i included
              subst included
              unfold includeOutcome at read
              cases path : includePath fs conf args[0]? with
              | error e =>
                rw [path] at read
                cases read
              | ok q =>
                rw [path] at read
                dsimp only at read
                refine ⟨q,by simp [includedBy,decoded,lineDirective,words,comment,known,path,Except.toOption],?_⟩
                cases opened : openManifest fs q with
                | error e =>
                  rw [opened] at read
                  cases read
                | ok fest =>
                  rw [opened] at read
                  dsimp only at read
                  split at read
                  · cases read
                  · cases read
                    rfl
            · cases read

theorem manifest_expands {files : Set Path} (finite : files.Finite)
    (closed : ∀ p ∈ files, ∀ q, Opens fs conf p q → q ∈ files)
    (acyclic : ∀ p ∈ files, ¬Relation.TransGen (Opens fs conf) p p) (start : p ∈ files) (opened : openManifest fs p = .ok fest) :
    ∃ steps, Inclusion.Expands (lineTurn fs conf) fest steps := by
  let text : Path → Fest := fun q => match openManifest fs q with
    | .ok fest => fest
    | .error _ => []
  have own : text p = fest := by simp [text,opened]
  rw [← own]
  refine Inclusion.expands_acyclic finite ?_ closed acyclic start
  intro a _ line inside inner read
  obtain ⟨q,included,inward⟩ := lineTurn_splice read
  refine ⟨q,?_,by simp [text,inward]⟩
  cases readable : openManifest fs a with
  | error e => simp [text,readable] at inside
  | ok lines =>
    have same : text a = lines := by simp [text,readable]
    exact ⟨lines,readable,List.mem_filterMap.mpr ⟨line,same ▸ inside,included⟩⟩

-- For every number of turns from some point on, reading the manifests with
-- their stack is handling the expanded lines one after the other.
theorem include_in_place (host : Host) (conf : Map) {files : Set Path} (finite : files.Finite)
    (closed : ∀ p ∈ files, ∀ q, Opens host.toFileSystem conf p q → q ∈ files)
    (acyclic : ∀ p ∈ files, ¬Relation.TransGen (Opens host.toFileSystem conf) p p) (start : p ∈ files)
    (opened : openManifest host.toFileSystem p = .ok fest) :
    ∃ steps, Inclusion.Expands (lineTurn host.toFileSystem conf) fest steps ∧
      (∀ other, Inclusion.Expands (lineTurn host.toFileSystem conf) fest other → other = steps) ∧
      (∃ turns, ∀ fuel ≥ turns, ∀ s : State, (manifestParse host conf fuel [fest]).run s =
        (Eff.forEach (handleStep host conf fuel) steps).run {s with autorunIdx:=0}) ∧
      ∀ before after fuel (s t : State), steps = before ++ after →
        (Eff.forEach (handleStep host conf fuel) before).run {s with autorunIdx:=0} = (.ok (),t) →
        t.autorunIdx = .ofNat (before.flatMap Step.locations).length := by
  obtain ⟨steps,expands⟩ := manifest_expands finite closed acyclic start opened
  refine ⟨steps,expands,fun other again => expands.unique again,?_,?_⟩
  · obtain ⟨turns,runs⟩ := expands.loop
    refine ⟨turns,fun fuel enough s => ?_⟩
    rw [manifestParse,update_bind_run,List.reverse_singleton,loop_turns]
    exact runs fuel enough spent (handleStep host conf fuel) _
  · intro before after fuel s t split ran
    have counted := (handleSteps_counts before 0).ok _ () t rfl ran
    rw [counted]
    exact UInt32.zero_add _

-- "/m" includes "/i" before and after a line of its own.
def outerPath : Path := Utf8.encode "/m".toList
def innerPath : Path := Utf8.encode "/i".toList
def outerFest : Fest := festLines [] (Utf8.encode "include /i\ndir /b\n# end\ninclude /i".toList)
def innerFest : Fest := festLines [] (Utf8.encode "\ndir /a".toList)

def manifestHost : Host := {bareHost with
  symlinkMetadata := fun _ => .ok ⟨S_IFREG ||| 0o644,0,0,1,0,0,0⟩
  fileOpen := fun p =>
    if p = outerPath then .ok (⟨S_IFREG ||| 0o644,0,0,1,0,0,0⟩,outerFest.flatten)
    else if p = innerPath then .ok (⟨S_IFREG ||| 0o644,0,0,1,0,0,0⟩,innerFest.flatten)
    else .error (.ofKind .notFound)
  cwd_absolute := root_absolute
  readDir_names := @lists_nothing
  canonicalize_absolute := @resolves_nothing}

def expandedSample : List Step := [.line .dir ["/a".toList],.line .dir ["/b".toList],.line .dir ["/a".toList]]

theorem sample_opens (opens : Opens manifestHost.toFileSystem (fun _ => none) p q) : p = outerPath ∧ q = innerPath := by
  obtain ⟨fest,opened,inside⟩ := opens
  by_cases outer : p = outerPath
  · subst outer
    have text : openManifest manifestHost.toFileSystem outerPath = .ok outerFest := by decide +kernel
    have included : outerFest.filterMap (includedBy manifestHost.toFileSystem fun _ => none) = [innerPath,innerPath] := by
      decide +kernel
    rw [text] at opened
    cases opened
    rw [included] at inside
    simpa using inside
  · by_cases inner : p = innerPath
    · subst inner
      have text : openManifest manifestHost.toFileSystem innerPath = .ok innerFest := by decide +kernel
      have included : innerFest.filterMap (includedBy manifestHost.toFileSystem fun _ => none) = [] := by decide +kernel
      rw [text] at opened
      cases opened
      rw [included] at inside
      cases inside
    · simp [openManifest,manifestHost,outer,inner] at opened

theorem include_in_place_sample : ∃ turns, ∀ fuel ≥ turns, ∀ s : State,
    (manifestParse manifestHost (fun _ => none) fuel [outerFest]).run s =
      (Eff.forEach (handleStep manifestHost (fun _ => none) fuel) expandedSample).run {s with autorunIdx:=0} := by
  have acyclic : ∀ p, ¬Relation.TransGen (Opens manifestHost.toFileSystem fun _ => none) p p := by
    intro p cycle
    obtain ⟨q,first,_⟩ := Relation.TransGen.head'_iff.mp cycle
    obtain ⟨r,_,last⟩ := Relation.TransGen.tail'_iff.mp cycle
    have apart : outerPath ≠ innerPath := by decide +kernel
    exact apart ((sample_opens first).1.symm.trans (sample_opens last).2)
  have opened : openManifest manifestHost.toFileSystem outerPath = .ok outerFest := by decide +kernel
  obtain ⟨steps,_,unique,runs,_⟩ := include_in_place manifestHost (fun _ => none)
    (Set.toFinite {outerPath,innerPath}) (fun p _ q opens => .inr (sample_opens opens).2) (fun p _ => acyclic p)
    (.inl rfl) opened
  have inner : Inclusion.Expands (lineTurn manifestHost.toFileSystem fun _ => none) innerFest [.line .dir ["/a".toList]] :=
    .skip (by decide +kernel) (.act (by decide +kernel) .nil)
  have expands : Inclusion.Expands (lineTurn manifestHost.toFileSystem fun _ => none) outerFest expandedSample :=
    .splice (by decide +kernel) inner (.act (by decide +kernel) (.skip (by decide +kernel)
      (.splice (by decide +kernel) inner .nil)))
  rw [unique expandedSample expands]
  exact runs

end Rapido.Cut

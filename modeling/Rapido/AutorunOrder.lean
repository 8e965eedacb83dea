import Rapido.Expansion

-- The order in which the guest sources what autorun has archived.
namespace Rapido.Cut
open UnixPath Cpio Text KvConf Eff

theorem bytesLe_append (front a b : List UInt8) : bytesLe (front ++ a) (front ++ b) = bytesLe a b := by
  induction front with
  | nil => rfl
  | cons x front ih => simp [bytesLe,ih]

def autorunName (fs : FileSystem) (conf : Map) (idx : UInt32) (location : Str) : Except IoError Path := do
  let src ← manifestNameSubAbsPath fs conf (some location)
  autorunDst src idx

theorem autorunName_ok (named : autorunName fs conf idx location = .ok name) :
    ∃ rest, name = AUTORUN_DIR ++ (slash :: (Utf8.encode (pad3 idx.toNat) ++ 45 :: rest)) := by
  unfold autorunName at named
  cases made : manifestNameSubAbsPath fs conf (some location) with
  | error e =>
    rw [made] at named
    cases named
  | ok src =>
    rw [made] at named
    change autorunDst src idx = .ok name at named
    unfold autorunDst at named
    split at named
    · cases named
    · split at named
      · cases named
        exact ⟨_,by rw [List.append_assoc]; rfl⟩
      · cases named

theorem encode_pad3 (n : Nat) : Utf8.encode (pad3 n) = List.replicate (3 - (Radix.decBytes n).length) 48 ++ Radix.decBytes n := by
  have zeros : ∀ k, Utf8.encode (List.replicate k '0') = List.replicate k 48 := by
    intro k
    rw [Utf8.encode_map_ascii _ fun c member => by rw [List.eq_of_mem_replicate member]; decide,List.map_replicate]
    rfl
  have long : (Nat.toDigits 10 n).length = (Radix.decBytes n).length := by simp [Radix.decBytes]
  rw [pad3,List.leftpad,Utf8.encode_append,zeros,Utf8.encode_toDigits,long]

theorem pad3_digits (small : n < 1000) :
    Utf8.encode (pad3 n) = [.ofNat (48 + n / 100),.ofNat (48 + n / 10 % 10),.ofNat (48 + n % 10)] := by
  have digit : ∀ d < 10, UInt8.ofNat (Nat.digitChar d).toNat = .ofNat (48 + d) := by decide
  have single : ∀ d < 10, Radix.decBytes d = [.ofNat (48 + d)] := by decide
  rw [encode_pad3]
  by_cases units : n < 10
  · rw [single n units]
    have zero : n / 100 = 0 ∧ n / 10 % 10 = 0 ∧ n % 10 = n := by omega
    rw [zero.1,zero.2.1,zero.2.2]
    rfl
  · rw [Radix.decBytes_step (by omega),digit (n % 10) (by omega)]
    by_cases tens : n / 10 < 10
    · rw [single _ tens]
      have zero : n / 100 = 0 ∧ n / 10 % 10 = n / 10 := by omega
      rw [zero.1,zero.2]
      rfl
    · have hundreds : n / 10 / 10 = n / 100 := by omega
      rw [Radix.decBytes_step (by omega),digit _ (by omega),hundreds,single _ (by omega)]
      rfl

theorem pad3_ordered (later : i < j) (small : j < 1000) (a b : List UInt8) :
    bytesLe (Utf8.encode (pad3 i) ++ a) (Utf8.encode (pad3 j) ++ b) = true := by
  have less : ∀ m n, m < 256 → n < 256 → (UInt8.ofNat m < UInt8.ofNat n ↔ m < n) := by
    intro m n first second
    rw [UInt8.lt_iff_toNat_lt,Utf8.toNat_byte first,Utf8.toNat_byte second]
  have same : ∀ m n, m < 256 → n < 256 → (UInt8.ofNat m = UInt8.ofNat n ↔ m = n) := by
    intro m n first second
    rw [← UInt8.toNat_inj,Utf8.toNat_byte first,Utf8.toNat_byte second]
  rw [pad3_digits (by omega),pad3_digits small]
  simp only [List.cons_append,List.nil_append,bytesLe,Bool.or_eq_true,Bool.and_eq_true,decide_eq_true_eq,beq_iff_eq]
  rw [less _ _ (by omega) (by omega),less _ _ (by omega) (by omega),less _ _ (by omega) (by omega),
    same _ _ (by omega) (by omega),same _ _ (by omega) (by omega)]
  omega

-- The fourth digit comes where the others have their '-'.
theorem pad3_overtaken (a b : List UInt8) : bytesLe (Utf8.encode (pad3 101) ++ a) (Utf8.encode (pad3 1000) ++ b) = false := by
  rfl

def targets (s : State) : List Path := s.archived.map Call.target

-- The names for locations whose first one gets the number n.
def Named (fs : FileSystem) (conf : Map) (n : UInt32) (locations : List Str) (names : List Path) : Prop :=
  locations.mapIdx (fun i location => autorunName fs conf (n + .ofNat i) location) = names.map .ok

theorem Named.append (first : Named fs conf n front names) (second : Named fs conf (n + .ofNat front.length) back others) :
    Named fs conf n (front ++ back) (names ++ others) := by
  unfold Named at first second ⊢
  have shifted : (fun i => autorunName fs conf (n + .ofNat (i + front.length))) =
      fun i => autorunName fs conf (n + .ofNat front.length + .ofNat i) := by
    funext i
    rw [UInt32.add_assoc,← UInt32.ofNat_add,Nat.add_comm]
  rw [List.mapIdx_append,List.map_append,first,← second,← shifted]

-- What the run has archived so far and where the counter stands.
def Counted (front : List Path) (n : UInt32) (s : State) : Prop := front.Sublist (targets s) ∧ s.autorunIdx = n

theorem counted_steady (front : List Path) (n : UInt32) : Steady (fun _ => False) (Counted front n) where
  archived := by
    intro s a c kept _
    refine ⟨kept.1.trans ?_,kept.2⟩
    unfold targets
    rw [List.map_append]
    exact List.sublist_append_left _ _
  refused := fun _ _ _ _ kept _ _ => kept
  inserted := fun _ _ kept => kept
  missing := fun _ impossible => impossible.elim
  needed := fun _ _ kept => kept
  kmods := fun _ _ kept => kept

theorem readIdx_counted :
    Ensures (Counted front n) (Eff.read (·.autorunIdx) : Gather UInt32) fun idx s => Counted front n s ∧ idx = n :=
  .read fun _ kept => ⟨kept,kept.2⟩

theorem archive_counted : Ensures (Counted front n) (archive c) fun _ => Counted (front ++ [c.target]) n := by
  refine archive_triple (fun s a kept _ => ⟨?_,kept.2⟩) fun _ _ _ _ _ => trivial
  unfold targets
  rw [List.map_append]
  exact kept.1.append (List.Sublist.refl _)

theorem manifestAutorun_named : Ensures (Counted front n) (manifestAutorun fs conf (some location))
    fun _ s => ∃ name, Named fs conf n [location] [name] ∧ Counted (front ++ [name]) (n+1) s := by
  have stored := (counted_steady front n).toStored
  refine Ensures.ofExcept_bind fun src made => ?_
  refine .bind readIdx_counted fun idx => .assuming fun same => ?_
  refine Ensures.ofExcept_bind fun dst placed => ?_
  have named : Named fs conf n [location] [dst] := by
    unfold Named autorunName
    rw [List.mapIdx_cons,made]
    change [autorunDst src (n + 0)] = _
    rw [UInt32.add_zero,← same,placed]
    rfl
  refine .bind (Keeps.runIf (.bind (archive_keeps stored) fun _ => .bind (insertPath_keeps stored) fun _ => .pure)).ensures fun _ => ?_
  refine Ensures.ofExcept_bind fun ⟨md,bytes⟩ _ => .bind archiveMd_same fun amd => ?_
  exact .bind archive_counted fun _ => .update fun s kept => ⟨dst,named,kept.1,congrArg (· + 1) kept.2⟩

theorem locations_named (locations : List Str) (front : List Path) (n : UInt32) :
    Ensures (Counted front n) (Eff.forEach (fun location => manifestAutorun fs conf (some location)) locations)
      fun _ s => ∃ names, Named fs conf n locations names ∧ Counted (front ++ names) (n + .ofNat locations.length) s := by
  induction locations generalizing front n with
  | nil =>
    refine .pure fun s kept => ⟨[],rfl,?_⟩
    rw [List.append_nil]
    exact ⟨kept.1,kept.2.trans (UInt32.add_zero n).symm⟩
  | cons location rest ih =>
    refine .bind manifestAutorun_named fun _ => .given fun s ⟨name,named,kept⟩ => ?_
    refine (ih (front ++ [name]) (n+1)).weaken (fun t same => same ▸ kept) fun _ t later => ?_
    obtain ⟨names,others,kept⟩ := later
    refine ⟨name :: names,named.append others,?_⟩
    have count : n + 1 + .ofNat rest.length = n + .ofNat (rest.length + 1) := by
      rw [UInt32.ofNat_add,UInt32.add_assoc,UInt32.add_comm 1]
      rfl
    rw [List.append_assoc,count] at kept
    exact kept

theorem handleStep_named (step : Step) (front : List Path) (n : UInt32) :
    Ensures (Counted front n) (handleStep host conf fuel step) fun _ s => ∃ names,
      Named host.toFileSystem conf n step.locations names ∧ Counted (front ++ names) (n + .ofNat step.locations.length) s :=
  handleStep_located (locations_named step.locations front n) fun _ _ _ other =>
    (directive_steady (counted_steady front n) other).ensures

theorem steps_named (steps : List Step) (front : List Path) (n : UInt32) :
    Ensures (Counted front n) (Eff.forEach (handleStep host conf fuel) steps) fun _ s => ∃ names,
      Named host.toFileSystem conf n (steps.flatMap Step.locations) names ∧ (front ++ names).Sublist (targets s) := by
  induction steps generalizing front n with
  | nil =>
    refine .pure fun s kept => ⟨[],rfl,?_⟩
    rw [List.append_nil]
    exact kept.1
  | cons step rest ih =>
    refine .bind (handleStep_named step front n) fun _ => .given fun s ⟨names,named,kept⟩ => ?_
    refine (ih (front ++ names) _).weaken (fun t same => same ▸ kept) fun _ t later => ?_
    obtain ⟨others,more,inside⟩ := later
    refine ⟨names ++ others,named.append more,?_⟩
    rw [List.append_assoc] at inside
    exact inside

theorem Named.get (named : Named fs conf 0 locations names) (inside : i < names.length) :
    ∃ rest, names[i] = AUTORUN_DIR ++ (slash :: (Utf8.encode (pad3 (UInt32.ofNat i).toNat) ++ 45 :: rest)) := by
  have here : (locations.mapIdx fun i location => autorunName fs conf (0 + .ofNat i) location)[i]? = some (.ok names[i]) := by
    rw [named]
    simp [inside]
  rw [List.getElem?_mapIdx,Option.map_eq_some_iff] at here
  obtain ⟨location,-,here⟩ := here
  rw [UInt32.zero_add] at here
  exact autorunName_ok here

theorem Named.length (named : Named fs conf n locations names) : names.length = locations.length := by
  have := congrArg List.length named
  simpa using this.symm

-- Up to number 999 the order of the names is that of the numbers.
theorem Named.sorted_iff (named : Named fs conf 0 locations names) : sortNames names = names ↔ locations.length ≤ 1000 := by
  rw [sortNames_iff,List.pairwise_iff_getElem,← named.length]
  have value : ∀ i < 2^32, (UInt32.ofNat i).toNat = i := fun i small => UInt32.toNat_ofNat_of_lt small
  constructor
  · intro sorted
    by_contra long
    obtain ⟨a,first⟩ := named.get (show 101 < names.length by omega)
    obtain ⟨b,second⟩ := named.get (show 1000 < names.length by omega)
    have ordered := sorted 101 1000 (by omega) (by omega) (by omega)
    rw [first,second,bytesLe_append,value 101 (by omega),value 1000 (by omega)] at ordered
    have overtaken := pad3_overtaken (45 :: a) (45 :: b)
    simp only [bytesLe] at ordered
    simp [overtaken] at ordered
  · intro short i j before after later
    obtain ⟨a,first⟩ := named.get before
    obtain ⟨b,second⟩ := named.get after
    rw [first,second,bytesLe_append,value i (by omega),value j (by omega)]
    simp [bytesLe,pad3_ordered later (show j < 1000 by omega)]

theorem autorun_order (ran : (manifestParse host conf fuel fests).run s = (.ok (),t)) :
    ∃ outs names, List.Forall₂ (Inclusion.Expands (lineTurn host.toFileSystem conf)) fests.reverse outs ∧
      ((outs.flatten.flatMap Step.locations).mapIdx fun i location => autorunName host.toFileSystem conf (.ofNat i) location) =
        names.map .ok ∧
      (s.archived.map Call.target ++ names).Sublist (t.archived.map Call.target) ∧
      (sortNames names = names ↔ (outs.flatten.flatMap Step.locations).length ≤ 1000) := by
  obtain ⟨outs,expands,handled⟩ := manifestParse_expands ran
  obtain ⟨names,named,archived⟩ := (steps_named outs.flatten (targets s) 0).ok {s with autorunIdx:=0} () t
    ⟨List.Sublist.refl _,rfl⟩ handled
  refine ⟨outs,names,expands,?_,archived,named.sorted_iff⟩
  unfold Named at named
  simpa using named

theorem archiveFile_empty (trimmed : pathTrimPrefixes p = .ok fname) (regular : md.mode &&& S_IFMT = S_IFREG) (empty : md.len = 0) :
    ((archiveFile p md data).run a).1 = .ok () := by
  have unaligned : dataAlignSeek a.state md fname = .ok 0 := by
    unfold dataAlignSeek
    rw [if_neg]
    simp [empty]
  have nothing : copyData md data = pure () := by
    unfold copyData
    rw [if_neg]
    simp [empty]
  unfold archiveFile
  rw [trimmed,ofExcept_ok,pure_bind_run,if_neg (not_not_intro regular),read_bind_run,unaligned,ofExcept_ok,pure_bind_run,nothing]
  rfl

-- A host where every path is an empty script.
def scriptMd : Metadata := ⟨S_IFREG ||| 0o755,0,0,1,0,0,0⟩

def scriptHost : Host := {bareHost with
  fileOpen := fun _ => .ok (scriptMd,[])
  cwd_absolute := root_absolute
  readDir_names := @lists_nothing
  canonicalize_absolute := @resolves_nothing}

def scriptPath (n : Nat) : Path := AUTORUN_DIR ++ slash :: Utf8.encode (pad3 n) ++ [45,97]

theorem trim_ok (short : p.length + 1 < PATH_MAX) : ∃ fname, pathTrimPrefixes p = .ok fname := by
  apply trim_iff.mpr
  have less := length_trimmedName_le p
  omega

theorem length_scriptPath (small : n < 10000) : (scriptPath n).length ≤ 22 := by
  have digits : (Radix.decBytes n).length ≤ 4 := by
    rw [Radix.decBytes,List.length_map]
    exact (Nat.length_toDigits_le_iff (by decide) (by decide)).mpr small
  have padded : (Utf8.encode (pad3 n)).length ≤ 4 := by
    rw [encode_pad3,List.length_append,List.length_replicate]
    omega
  have directory : AUTORUN_DIR.length = 15 := by decide
  rw [scriptPath,List.length_append,List.length_append,List.length_cons,directory]
  simp only [List.length_cons,List.length_nil]
  omega

@[irreducible] def manyLocations : List Str := List.replicate 1001 "/a".toList
@[irreducible] def manyLine : List UInt8 := Utf8.encode ("autorun".toList ++ manyLocations.flatMap fun location => ' ' :: location)

theorem wordsFrom_visible (visible : ∀ c ∈ w, whitespace c = false) (acc rest : Str) :
    wordsFrom acc (w ++ rest) = wordsFrom (acc ++ w) rest := by
  induction w generalizing acc with
  | nil => rw [List.append_nil,List.nil_append]
  | cons c w ih =>
    rw [List.cons_append,wordsFrom,if_neg (by simp [visible c List.mem_cons_self]),
      ih fun d inside => visible d (List.mem_cons_of_mem _ inside)]
    simp

theorem wordsFrom_spaced (filled : acc ≠ []) (plain : ∀ w ∈ words, w ≠ [] ∧ ∀ c ∈ w, whitespace c = false) :
    wordsFrom acc (words.flatMap fun w => ' ' :: w) = acc :: words := by
  induction words generalizing acc with
  | nil => exact if_neg filled
  | cons w words ih =>
    have first := plain w List.mem_cons_self
    rw [List.flatMap_cons,List.cons_append,wordsFrom,if_pos (by decide),if_neg filled,wordsFrom_visible first.2,List.nil_append,
      ih first.1 fun v inside => plain v (List.mem_cons_of_mem _ inside)]

theorem length_spaced {words : List Str} (same : ∀ w ∈ words, w = "/a".toList) :
    (Utf8.encode (words.flatMap fun w => ' ' :: w)).length = 3 * words.length := by
  induction words with
  | nil => rfl
  | cons w words ih =>
    rw [List.flatMap_cons,Utf8.encode_append,List.length_append,ih fun v inside => same v (List.mem_cons_of_mem _ inside),
      same w List.mem_cons_self,List.length_cons]
    have three : (Utf8.encode (' ' :: "/a".toList)).length = 3 := by decide
    omega

theorem manyLocations_same : ∀ location ∈ manyLocations, location = "/a".toList := by
  unfold manyLocations
  exact fun location inside => List.eq_of_mem_replicate inside

theorem manyLocations_length : manyLocations.length = 1001 := by
  unfold manyLocations
  exact List.length_replicate

theorem manyLine_turn : lineTurn scriptHost.toFileSystem (fun _ => none) manyLine = .act (.line .autorun manyLocations) := by
  have short : manyLine.length = 7 + 3 * manyLocations.length := by
    unfold manyLine
    rw [Utf8.encode_append,List.length_append,length_spaced manyLocations_same]
    rfl
  have words : splitWhitespace ("autorun".toList ++ manyLocations.flatMap fun location => ' ' :: location) =
      "autorun".toList :: manyLocations := by
    rw [splitWhitespace,wordsFrom_visible (visible_of_all (by decide)),List.nil_append]
    refine wordsFrom_spaced (by decide) fun w inside => ?_
    rw [manyLocations_same w inside]
    exact ⟨by decide,visible_of_all (by decide)⟩
  rw [manyLocations_length] at short
  unfold lineTurn
  have decoded : Utf8.decode manyLine = some ("autorun".toList ++ manyLocations.flatMap fun location => ' ' :: location) := by
    unfold manyLine
    exact Utf8.decode_encode _
  rw [decoded]
  dsimp only
  rw [if_neg (by rw [short]; decide),words]
  rfl

theorem autorunParent_ok (s : State) : ∃ t, autorunParent.run s = (.ok (),t) ∧ t.autorunIdx = s.autorunIdx := by
  obtain ⟨a,ran⟩ := archive_ok (c:=.path AUTORUN_DIR {CPIO_AMD_DEFAULT with mode:=S_IFDIR ||| 0o755}) (s:=s)
    (archivePath_dir (show pathTrimPrefixes AUTORUN_DIR = .ok _ from rfl) (by decide))
  unfold autorunParent
  rw [bind_run_ok ran,bind_run,insertPath_run]
  by_cases seen : components AUTORUN_DIR ∈ s.pathsSeen
  · rw [if_pos seen]
    exact ⟨_,rfl,rfl⟩
  · rw [if_neg seen]
    exact ⟨_,rfl,rfl⟩

theorem scriptMd_ok (state : ArchiveState) :
    ∃ amd, ArchiveMd.fromMetadata state scriptMd = .ok amd ∧ amd.mode &&& S_IFMT = S_IFREG ∧ amd.len = 0 := by
  unfold ArchiveMd.fromMetadata
  cases state.props.fixedMtime with
  | none => exact ⟨_,rfl,show scriptMd.mode &&& S_IFMT = S_IFREG by decide,show scriptMd.len.toUInt32 = 0 by decide⟩
  | some t => exact ⟨_,rfl,show scriptMd.mode &&& S_IFMT = S_IFREG by decide,show scriptMd.len.toUInt32 = 0 by decide⟩

theorem emptyFile_ok (trimmed : pathTrimPrefixes p = .ok fname) (s : State) : ∃ t,
    (do
      let amd ← archiveMd scriptMd
      archive (.file p amd [])
      Eff.update fun s => {s with autorunIdx:=s.autorunIdx + 1} : Gather Unit).run s = (.ok (),t) ∧
    t.autorunIdx = s.autorunIdx + 1 := by
  obtain ⟨amd,made,regular,empty⟩ := scriptMd_ok s.archive.state
  have accepted : ((Call.file p amd []).run.run s.archive).1 = .ok () := archiveFile_empty trimmed regular empty
  obtain ⟨a,archived⟩ := archive_ok accepted
  have metadata : (archiveMd scriptMd).run s = (.ok amd,s) := by
    unfold archiveMd
    rw [read_bind_run,made]
    rfl
  rw [bind_run_ok metadata,bind_run_ok archived]
  exact ⟨_,rfl,rfl⟩

theorem script_ok (s : State) (small : s.autorunIdx.toNat < 1001) :
    ∃ t, (manifestAutorun scriptHost.toFileSystem (fun _ => none) (some "/a".toList)).run s = (.ok (),t) ∧
      t.autorunIdx = s.autorunIdx + 1 := by
  have src : manifestNameSubAbsPath scriptHost.toFileSystem (fun _ => none) (some "/a".toList) = .ok (Utf8.encode "/a".toList) := by
    decide +kernel
  have dst : autorunDst (Utf8.encode "/a".toList) s.autorunIdx = .ok (scriptPath s.autorunIdx.toNat) := by
    have name : fileName (Utf8.encode "/a".toList) = some [97] := by decide +kernel
    unfold autorunDst scriptPath
    rw [name]
    rfl
  have long := length_scriptPath (show s.autorunIdx.toNat < 10000 by omega)
  obtain ⟨fname,trimmed⟩ := trim_ok (Nat.lt_of_le_of_lt (Nat.succ_le_succ long) (by decide))
  have parent : ∃ u, (Eff.runIf (s.autorunIdx = 0) autorunParent).run s = (.ok (),u) ∧ u.autorunIdx = s.autorunIdx := by
    unfold Eff.runIf
    split
    · exact autorunParent_ok s
    · exact ⟨s,rfl,rfl⟩
  obtain ⟨u,started,same⟩ := parent
  unfold manifestAutorun
  rw [src,ofExcept_ok,pure_bind_run,read_bind_run,dst,ofExcept_ok,pure_bind_run,bind_run_ok started]
  obtain ⟨t,ended,counted⟩ := emptyFile_ok trimmed u
  exact ⟨t,ended,counted.trans (congrArg (· + 1) same)⟩

theorem scripts_ok (locations : List Str) (same : ∀ location ∈ locations, location = "/a".toList) (s : State)
    (small : s.autorunIdx.toNat + locations.length ≤ 1001) : ∃ t,
    (Eff.forEach (fun location => manifestAutorun scriptHost.toFileSystem (fun _ => none) (some location)) locations).run s =
      (.ok (),t) ∧ t.autorunIdx = s.autorunIdx + .ofNat locations.length := by
  induction locations generalizing s with
  | nil => exact ⟨s,rfl,(UInt32.add_zero _).symm⟩
  | cons location rest ih =>
    rw [List.length_cons] at small
    obtain ⟨u,first,counted⟩ := script_ok s (by omega)
    rw [← same location List.mem_cons_self] at first
    have value : u.autorunIdx.toNat = s.autorunIdx.toNat + 1 := by
      rw [counted,UInt32.toNat_add]
      exact Nat.mod_eq_of_lt (by simp; omega)
    obtain ⟨t,later,last⟩ := ih (fun other inside => same other (List.mem_cons_of_mem _ inside)) u (by omega)
    refine ⟨t,(bind_run_ok first).trans later,?_⟩
    rw [last,counted,List.length_cons,Nat.add_comm rest.length 1,UInt32.ofNat_add,UInt32.add_assoc]
    rfl

theorem directive_autoruns {locations : List Str}
    (ran : (Eff.forEach (fun location => manifestAutorun host.toFileSystem conf (some location)) locations).run s = (.ok (),t))
    (moved : ¬s.autorunIdx = t.autorunIdx) : (directive host conf fuel .autorun locations).run s = (.ok ([],[]),t) := by
  have ended : (manifestAutoruns host.toFileSystem conf locations).run s = (.ok (),t) := by
    unfold manifestAutoruns
    rw [read_bind_run,bind_run_ok ran,read_bind_run]
    unfold Eff.runIf
    rw [if_neg moved]
    rfl
  exact bind_run_ok ended

theorem manyLocations_ok : ∃ t, (directive scriptHost (fun _ => none) fuel .autorun manyLocations).run emptyState =
    (.ok ([],[]),t) := by
  obtain ⟨t,ran,counted⟩ := scripts_ok manyLocations manyLocations_same emptyState (by rw [manyLocations_length]; decide)
  rw [manyLocations_length] at counted
  refine ⟨t,directive_autoruns ran ?_⟩
  rw [counted]
  decide

-- One line with more locations than three digits can number.
theorem overtaken {line : List UInt8} {locations : List Str} {s : State}
    (read : lineTurn host.toFileSystem conf line = .act (.line .autorun locations)) (start : s.autorunIdx = 0)
    (directed : ∀ fuel, ∃ t, (directive host conf fuel .autorun locations).run s = (.ok ([],[]),t))
    (many : 1000 < locations.length) :
    ∃ fuel t names, (manifestParse host conf fuel [[line]]).run s = (.ok (),t) ∧
      (locations.mapIdx fun i location => autorunName host.toFileSystem conf (.ofNat i) location) = names.map .ok ∧
      names.Sublist (t.archived.map Call.target) ∧ sortNames names ≠ names := by
  have expands : Inclusion.Expands (lineTurn host.toFileSystem conf) [line] [.line .autorun locations] := .act read .nil
  obtain ⟨fuel,runs⟩ := expands.loop
  obtain ⟨t,ran⟩ := directed fuel
  have handled : (handleStep host conf fuel (.line .autorun locations)).run s = (.ok (),t) := bind_run_ok ran
  obtain ⟨names,named,archived⟩ := (handleStep_named (.line .autorun locations) [] 0).ok s () t ⟨List.nil_sublist _,start⟩ handled
  refine ⟨fuel,t,names,?_,?_,archived.1,?_⟩
  · have same : {s with autorunIdx:=0} = s := by rw [← start]
    rw [manifestParse,update_bind_run,List.reverse_singleton,loop_turns,same]
    exact (runs fuel (Nat.le_refl _) spent (handleStep host conf fuel) s).trans (bind_run_ok handled)
  · unfold Named at named
    simpa [Step.locations] using named
  · rw [ne_eq,named.sorted_iff]
    exact Nat.not_le_of_lt many

theorem autorun_overtaken : ∃ fuel t names,
    (manifestParse scriptHost (fun _ => none) fuel [[manyLine]]).run emptyState = (.ok (),t) ∧
      (manyLocations.mapIdx fun i location => autorunName scriptHost.toFileSystem (fun _ => none) (.ofNat i) location) =
        names.map .ok ∧
      names.Sublist (t.archived.map Call.target) ∧ sortNames names ≠ names :=
  overtaken manyLine_turn rfl (fun _ => manyLocations_ok) (by rw [manyLocations_length]; decide)

-- "autorun /b" and then "autorun /a".
def pairFest : Fest := [Utf8.encode "autorun /b\n".toList,Utf8.encode "autorun /a\n".toList]
@[irreducible] def pairRun : Except IoError Unit × State := (manifestParse scriptHost (fun _ => none) 3 [pairFest]).run emptyState

theorem pairRun_ok : (manifestParse scriptHost (fun _ => none) 3 [pairFest]).run emptyState = (.ok (),pairRun.2) := by
  have succeeds : ((manifestParse scriptHost (fun _ => none) 3 [pairFest]).run emptyState).1 = .ok () := by decide +kernel
  unfold pairRun
  exact run_ok succeeds

theorem autorun_order_pair : ∃ names, names = ["/rapido_autorun/000-b","/rapido_autorun/001-a"].map (fun p => Utf8.encode p.toList) ∧
    names.Sublist (pairRun.2.archived.map Call.target) ∧ sortNames names = names := by
  obtain ⟨outs,names,expands,named,archived,sorted⟩ := autorun_order pairRun_ok
  have expanded : Inclusion.Expands (lineTurn scriptHost.toFileSystem fun _ => none) pairFest
      [.line .autorun ["/b".toList],.line .autorun ["/a".toList]] :=
    .act (by decide +kernel) (.act (by decide +kernel) .nil)
  have only := expanded.only expands
  subst only
  have placed : (["/b".toList,"/a".toList].mapIdx fun i location =>
      autorunName scriptHost.toFileSystem (fun _ => none) (.ofNat i) location) =
        (["/rapido_autorun/000-b","/rapido_autorun/001-a"].map fun p => Utf8.encode p.toList).map .ok := by
    decide +kernel
  have same := List.map_injective_iff.mpr (fun _ _ => Except.ok.inj) (named.symm.trans placed)
  exact ⟨names,same,archived,sorted.mpr (by decide)⟩

end Rapido.Cut

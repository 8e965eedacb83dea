import Rapido.VmResources

namespace Rapido.Vm
open Cpio Newc Radix UnixPath
variable {props : ArchiveProperties} {ino : UInt32} {calls : List Call} {entries : List Entry} {name : List UInt8}

def dataLen : Call → Nat
  | .symlink _ _ tgt => tgt.length
  | .file _ md _ => md.len.toNat
  | _ => 0

-- The zeros that archive_file puts behind a name.
def injected (props : ArchiveProperties) (written : Nat) (fname : List UInt8) : Call → Nat
  | .file _ md _ => match dataAlignSeek ⟨props,.ofNat written,0⟩ md fname with
    | .ok seek => seek.toNat
    | .error _ => 0
  | _ => 0

def entryLen (namesize datalen : Nat) : Nat :=
  NEWC_HDR_LEN + namesize + pad4 (NEWC_HDR_LEN + namesize) + (datalen + pad4 datalen)

-- The names given to the writer, each with the zeros it gets.
def layout (props : ArchiveProperties) (written : Nat) : List Call → List (List UInt8 × Nat)
  | [] => []
  | c :: rest =>
    let fname := trimmedName c.target
    let zeros := injected props written fname c
    (fname,zeros) :: layout props (written + entryLen (fname.length + 1 + zeros) (dataLen c)) rest

def padded (e : List UInt8 × Nat) : List UInt8 := e.1 ++ zeros e.2

theorem length_encode (e : Entry) : e.encode.length = entryLen e.name.length e.data.length := by
  simp only [Entry.encode,List.length_append,e.length_header,length_zeros,entryLen]
  omega

theorem described_shape (body : c ≠ .trailer) (described : Describes props written ino c e) :
    e.name = trimmedName c.target ++ zeros (1 + injected props written (trimmedName c.target) c) ∧
      e.data.length = dataLen c := by
  cases c with
  | trailer => exact absurd rfl body
  | path p md =>
    obtain ⟨_,same,fname,trimmed,named⟩ := described
    refine ⟨by rw [named,trim_name trimmed]; rfl,?_⟩
    rw [e.sized,same]
    rfl
  | symlink p md tgt =>
    obtain ⟨_,_,data,fname,trimmed,named⟩ := described
    exact ⟨by rw [named,trim_name trimmed]; rfl,by rw [data]; rfl⟩
  | file p md data =>
    obtain ⟨_,same,_,fname,seek,trimmed,sought,named⟩ := described
    have same' : dataAlignSeek ⟨props,.ofNat written,0⟩ md fname = .ok seek := sought
    refine ⟨?_,by rw [e.sized,same]; rfl⟩
    rw [named,show Call.target (.file p md data) = p from rfl,← trim_name trimmed]
    simp only [injected,same']

theorem wrote_layout (bodies : ∀ c ∈ calls, c ≠ .trailer) (wrote : Wrote props written ino calls entries) :
    entries.map visibleName = (layout props written calls).map padded := by
  induction wrote with
  | nil => rfl
  | @cons written ino c e calls entries described aligned rest ih =>
    obtain ⟨named,data⟩ := described_shape (bodies c (by simp)) described
    have length : e.name.length = (trimmedName c.target).length + 1 + injected props written (trimmedName c.target) c := by
      rw [named,List.length_append,length_zeros,Nat.add_assoc]
    have later := ih fun c member => bodies c (List.mem_cons_of_mem _ member)
    rw [length_encode,data,length] at later
    have seen : visibleName e = padded (trimmedName c.target,injected props written (trimmedName c.target) c) := by
      rw [visibleName,named,Nat.add_comm 1,zeros_add,← List.append_assoc,List.length_append,length_zeros,
        Nat.add_sub_cancel,List.take_left]
      rfl
    simp only [List.map_cons,layout,seen,later]

theorem wrote_narrow (ready : Aligned props) (limit : props.namesizeMax.toNat ≤ 4097) (bodies : ∀ c ∈ calls, c ≠ .trailer)
    (wrote : Wrote props written ino calls entries) : ∀ e ∈ entries, e.name.length ≤ PATH_MAX + 1 := by
  induction wrote with
  | nil => intro e member; cases member
  | cons described aligned rest ih =>
    intro e member
    rcases List.mem_cons.mp member with rfl | later
    · obtain ⟨_,_,_,_,narrow⟩ := described_name ready aligned limit (bodies _ (by simp)) described
      exact narrow
    · exact ih (fun c member => bodies c (List.mem_cons_of_mem _ member)) e later

theorem layout_names (props : ArchiveProperties) (written : Nat) (calls : List Call) :
    (layout props written calls).map Prod.fst = calls.map fun c => trimmedName c.target := by
  induction calls generalizing written with
  | nil => rfl
  | cons c rest ih => simp only [layout,List.map_cons,ih]

theorem layout_unaligned (off : props.dataAlign = 0) (written : Nat) (calls : List Call) :
    (layout props written calls).map padded = calls.map fun c => trimmedName c.target := by
  induction calls generalizing written with
  | nil => rfl
  | cons c rest ih =>
    have none : injected props written (trimmedName c.target) c = 0 := by
      cases c with
      | file p md data => simp [injected,dataAlignSeek,off]
      | path p md => rfl
      | symlink p md tgt => rfl
      | trailer => rfl
    simp only [layout,List.map_cons,ih,padded,none]
    simp [zeros]

def rscName (name : List UInt8) : Bool := decide (RSC <+: name)
def rsc (e : List UInt8 × Nat) : Bool := rscName e.1
def setting (name : List UInt8) : Bool := decide (RSC_CPU <+: name ∨ RSC_MEM <+: name)
-- The name ends the walk when nothing follows it.
def ending (e : List UInt8 × Nat) : Bool := decide (e.1 = trailerName ∧ e.2 = 0)
def invalid (name : List UInt8) : Bool :=
  match vmResourceLineProcess name .defaults with
  | .error _ => true
  | .ok _ => false

def settle (rscs : VmResources) (names : List (List UInt8)) : Except IoError VmResources :=
  names.foldlM (fun rscs name => (vmResourceLineProcess name rscs).map Prod.snd) rscs

-- The entries that can set anything: the first run of rapido-rsc paths.
def scanned (es : List (List UInt8 × Nat)) : List (List UInt8 × Nat) :=
  (es.dropWhile fun e => !rsc e && !ending e).takeWhile rsc
-- What is walked over before that run.
def skipped (es : List (List UInt8 × Nat)) : List (List UInt8 × Nat) :=
  es.takeWhile fun e => !rsc e && !ending e

-- A padded TRAILER!!! no longer ends the walk, so what comes behind it must
-- not matter. Otherwise padding must neither spoil a number nor hide the only
-- rapido-rsc/net, unless an invalid number fails both readings.
def Invisible (es : List (List UInt8 × Nat)) : Prop :=
  if (skipped es).any fun e => decide (e.1 = trailerName) then settle .defaults ((scanned es).map padded) = .ok .defaults
  else (∃ e ∈ scanned es, invalid e.1) ∨
    ((∀ e ∈ scanned es, setting e.1 → e.2 = 0) ∧
      ((∃ e ∈ scanned es, e.1 = RSC_NET) → ∃ e ∈ scanned es, e.1 = RSC_NET ∧ e.2 = 0))

theorem prefix_padded (clean : 0 ∉ front) (name : List UInt8) (k : Nat) : front <+: name ++ zeros k ↔ front <+: name := by
  constructor
  · intro whole
    rcases List.prefix_or_prefix_of_prefix whole (List.prefix_append name (zeros k)) with inside | outside
    · exact inside
    · -- the rest of `front` would have to be zeros
      obtain ⟨rest,rfl⟩ := outside
      have tail : rest <+: zeros k := (List.prefix_append_right_inj name).mp whole
      cases rest with
      | nil => exact ⟨[],by simp⟩
      | cons b rest =>
        have zero : b = 0 := List.eq_of_mem_replicate (tail.subset (List.mem_cons_self ..))
        exact absurd (by simp [zero]) clean
  · intro inside
    exact inside.trans (List.prefix_append _ _)

theorem padded_eq (clean : 0 ∉ fixed) (name : List UInt8) (k : Nat) : name ++ zeros k = fixed ↔ name = fixed ∧ k = 0 := by
  constructor
  · intro same
    cases k with
    | zero => exact ⟨by simpa [zeros] using same,rfl⟩
    | succ k => exact absurd (by rw [← same]; simp [zeros]) clean
  · rintro ⟨rfl,rfl⟩
    simp [zeros]

theorem cpus_padded (val : List UInt8) (k : Nat) : parseCpus (val ++ zeros (k+1)) = .error (.ofKind .invalidData) := by
  unfold parseCpus
  rw [fromStrRadix_bad (b:=0) (by simp [zeros]) (by decide) (by decide)]

theorem mem_padded (val : List UInt8) (k : Nat) : parseMem (val ++ zeros (k+1)) = .error (.ofKind .invalidData) := by
  have bad : fromStrRadix 10 (2^64) (val ++ zeros (k+1)) = none :=
    fromStrRadix_bad (b:=0) (by simp [zeros]) (by decide) (by decide)
  unfold parseMem
  cases found : rsplitUnit (val ++ zeros (k+1)) with
  | none => simp only [bad,Option.isSome_none,Bool.false_eq_true,if_false]
  | some pair =>
    obtain ⟨n,u⟩ := pair
    have tail : u ≠ [] := by
      unfold rsplitUnit at found
      dsimp only at found
      split at found
      · cases found
      · cases found
        simp [zeros,List.replicate_succ,memUnit]
    simp [tail]

-- Everything a name can do to the resources.
inductive Effect (name : List UInt8) : Prop where
  | bad (sets : setting name = true) (fails : ∀ r, vmResourceLineProcess name r = .error (.ofKind .invalidData))
  | cpus (sets : setting name = true) (c : UInt32) (runs : ∀ r, vmResourceLineProcess name r = .ok (true,{r with cpus:=c}))
  | mem (sets : setting name = true) (m : List UInt8) (runs : ∀ r, vmResourceLineProcess name r = .ok (true,{r with mem:=m}))
  | other (unset : setting name = false) (runs : ∀ r, vmResourceLineProcess name r =
      .ok (decide (RSC <+: name),if name = RSC_NET then {r with net:=true} else r))

theorem name_effect (name : List UInt8) : Effect name := by
  by_cases cpu : RSC_CPU <+: name
  · have sets : setting name = true := by simp [setting,cpu]
    cases parsed : parseCpus (name.drop RSC_CPU.length) with
    | ok c => exact .cpus sets c fun r => by simp [vmResourceLineProcess,cpu,parsed]
    | error e =>
      have kind : e = .ofKind .invalidData := by
        unfold parseCpus at parsed
        split at parsed
        · cases parsed
        · exact (Except.error.inj parsed).symm
      exact .bad sets fun r => by simp [vmResourceLineProcess,cpu,parsed,kind]
  · by_cases mem : RSC_MEM <+: name
    · have sets : setting name = true := by simp [setting,mem]
      cases parsed : parseMem (name.drop RSC_MEM.length) with
      | ok m => exact .mem sets m fun r => by simp [vmResourceLineProcess,cpu,mem,parsed]
      | error e =>
        have kind : e = .ofKind .invalidData := by
          unfold parseMem at parsed
          split at parsed <;> split at parsed <;> cases parsed <;> rfl
        exact .bad sets fun r => by simp [vmResourceLineProcess,cpu,mem,parsed,kind]
    · refine .other (by simp [setting,cpu,mem]) fun r => ?_
      simp only [vmResourceLineProcess,if_neg cpu,if_neg mem]
      by_cases args : name = RSC_CUSTOM_ARGS
      · subst args
        rfl
      · by_cases net : name = RSC_NET
        · subst net
          rfl
        · simp only [if_neg args,if_neg net]
          split
          · rename_i inside
            rw [decide_eq_true inside]
          · rename_i outside
            rw [decide_eq_false outside]

theorem setting_padded (name : List UInt8) (k : Nat) : setting (name ++ zeros k) = setting name := by
  have cpu : RSC_CPU <+: name ++ zeros k ↔ RSC_CPU <+: name := prefix_padded (by decide) name k
  have mem : RSC_MEM <+: name ++ zeros k ↔ RSC_MEM <+: name := prefix_padded (by decide) name k
  rw [setting,setting,decide_eq_decide,cpu,mem]

theorem setting_spoiled (sets : setting name = true) (k : Nat) (r : VmResources) :
    vmResourceLineProcess (name ++ zeros (k+1)) r = .error (.ofKind .invalidData) := by
  unfold vmResourceLineProcess
  by_cases cpu : RSC_CPU <+: name
  · obtain ⟨val,rfl⟩ := cpu
    rw [if_pos ((List.prefix_append _ _).trans (List.prefix_append _ _)),List.append_assoc,List.drop_left,cpus_padded]
  · have mem : RSC_MEM <+: name := by
      have either : RSC_CPU <+: name ∨ RSC_MEM <+: name := by simpa [setting] using sets
      exact either.resolve_left cpu
    have noCpu : ¬RSC_CPU <+: name ++ zeros (k+1) := fun whole => cpu ((prefix_padded (by decide) name _).mp whole)
    obtain ⟨val,rfl⟩ := mem
    rw [if_neg noCpu,if_pos ((List.prefix_append _ _).trans (List.prefix_append _ _)),List.append_assoc,List.drop_left,
      mem_padded]

theorem settle_cons (r : VmResources) (name : List UInt8) (rest : List (List UInt8)) :
    settle r (name :: rest) = match vmResourceLineProcess name r with
      | .ok (_,r) => settle r rest
      | .error e => .error e := by
  rw [settle,List.foldlM_cons]
  cases vmResourceLineProcess name r <;> rfl

theorem settle_fails (member : name ∈ names) (fails : ∀ r, vmResourceLineProcess name r = .error (.ofKind .invalidData))
    (r : VmResources) : settle r names = .error (.ofKind .invalidData) := by
  induction names generalizing r with
  | nil => cases member
  | cons first rest ih =>
    rw [settle_cons]
    rcases List.mem_cons.mp member with rfl | later
    · rw [fails r]
    · cases name_effect first with
      | bad sets fails => rw [fails r]
      | cpus sets c runs => rw [runs r]; exact ih later _
      | mem sets m runs => rw [runs r]; exact ih later _
      | other unset runs => rw [runs r]; exact ih later _

theorem invalid_fails (bad : invalid name = true) :
    setting name = true ∧ ∀ r, vmResourceLineProcess name r = .error (.ofKind .invalidData) := by
  unfold invalid at bad
  cases name_effect name with
  | bad sets fails => exact ⟨sets,fails⟩
  | cpus sets c runs => simp [runs] at bad
  | mem sets m runs => simp [runs] at bad
  | other unset runs => simp [runs] at bad

theorem fails_invalid (fails : ∀ r, vmResourceLineProcess name r = .error (.ofKind .invalidData)) :
    invalid name = true := by
  simp [invalid,fails]

variable {es : List (List UInt8 × Nat)}

-- Without bad or padded numbers the two readings differ in nothing but net.
theorem settle_pair (valid : ∀ e ∈ es, invalid e.1 = false) (bare : ∀ e ∈ es, setting e.1 = true → e.2 = 0)
    (r s : VmResources) (cpus : r.cpus = s.cpus) (mem : r.mem = s.mem) :
    ∃ r' s', settle r (es.map Prod.fst) = .ok r' ∧ settle s (es.map padded) = .ok s' ∧ r'.cpus = s'.cpus ∧
      r'.mem = s'.mem ∧ r'.net = (r.net || es.any fun e => decide (e.1 = RSC_NET)) ∧
      s'.net = (s.net || es.any fun e => decide (e.1 = RSC_NET ∧ e.2 = 0)) := by
  induction es generalizing r s with
  | nil => exact ⟨r,s,rfl,rfl,cpus,mem,by simp,by simp⟩
  | cons e es ih =>
    obtain ⟨name,k⟩ := e
    have later := ih (fun e member => valid e (List.mem_cons_of_mem _ member))
      (fun e member => bare e (List.mem_cons_of_mem _ member))
    have sound := valid (name,k) (by simp)
    have plain := bare (name,k) (by simp)
    simp only [List.map_cons,settle_cons,List.any_cons]
    cases name_effect name with
    | bad sets fails =>
      rw [fails_invalid fails] at sound
      cases sound
    | cpus sets c runs =>
      have zero : k = 0 := plain sets
      have differs : name ≠ RSC_NET := by rintro rfl; exact absurd sets (by decide)
      have same : padded (name,k) = name := by simp [padded,zero,zeros]
      rw [runs r,same,runs s]
      simpa [differs] using later {r with cpus:=c} {s with cpus:=c} rfl mem
    | mem sets m runs =>
      have zero : k = 0 := plain sets
      have differs : name ≠ RSC_NET := by rintro rfl; exact absurd sets (by decide)
      have same : padded (name,k) = name := by simp [padded,zero,zeros]
      rw [runs r,same,runs s]
      simpa [differs] using later {r with mem:=m} {s with mem:=m} cpus rfl
    | other unset runs =>
      have unset' : setting (padded (name,k)) = false := by rw [padded,setting_padded,unset]
      cases name_effect (padded (name,k)) with
      | bad sets fails => rw [unset'] at sets; cases sets
      | cpus sets c runs => rw [unset'] at sets; cases sets
      | mem sets m runs => rw [unset'] at sets; cases sets
      | other _ runs' =>
        have net : padded (name,k) = RSC_NET ↔ name = RSC_NET ∧ k = 0 := padded_eq (by decide) name k
        rw [runs r,runs' s]
        simp only [net]
        by_cases named : name = RSC_NET
        · by_cases zero : k = 0
          · simpa [named,zero] using later {r with net:=true} {s with net:=true} cpus mem
          · simpa [named,zero] using later {r with net:=true} s cpus mem
        · simpa [named] using later r s cpus mem

theorem settle_ok (valid : ∀ e ∈ es, invalid e.1 = false) (r : VmResources) :
    ∃ r', settle r (es.map Prod.fst) = .ok r' := by
  have zeroed : ∀ e ∈ es.map fun e => (e.1,(0 : Nat)), invalid e.1 = false := by
    intro e member
    obtain ⟨e,inside,rfl⟩ := List.mem_map.mp member
    exact valid e inside
  obtain ⟨r',_,ran,_⟩ := settle_pair zeroed (by
    intro e member _
    obtain ⟨e,_,rfl⟩ := List.mem_map.mp member
    rfl) r r rfl rfl
  exact ⟨r',by simpa [Function.comp_def] using ran⟩

theorem padded_fails (member : e ∈ es) (sets : setting e.1 = true) (spoiled : e.2 ≠ 0 ∨ invalid e.1 = true) (r : VmResources) :
    settle r (es.map padded) = .error (.ofKind .invalidData) := by
  obtain ⟨name,k⟩ := e
  refine settle_fails (List.mem_map.mpr ⟨_,member,rfl⟩) (fun r => ?_) r
  cases k with
  | succ k => exact setting_spoiled sets k r
  | zero =>
    rcases spoiled with positive | bad
    · exact absurd rfl positive
    · rw [show padded (name,0) = name by simp [padded,zeros]]
      exact (invalid_fails bad).2 r

theorem settle_iff (es : List (List UInt8 × Nat)) :
    settle .defaults (es.map Prod.fst) = settle .defaults (es.map padded) ↔ (∃ e ∈ es, invalid e.1 = true) ∨
      ((∀ e ∈ es, setting e.1 = true → e.2 = 0) ∧ ((∃ e ∈ es, e.1 = RSC_NET) → ∃ e ∈ es, e.1 = RSC_NET ∧ e.2 = 0)) := by
  by_cases bad : ∃ e ∈ es, invalid e.1 = true
  · obtain ⟨e,member,isBad⟩ := bad
    obtain ⟨sets,fails⟩ := invalid_fails isBad
    rw [settle_fails (List.mem_map.mpr ⟨e,member,rfl⟩) fails,padded_fails member sets (.inr isBad)]
    exact ⟨fun _ => .inl ⟨e,member,isBad⟩,fun _ => rfl⟩
  · have valid : ∀ e ∈ es, invalid e.1 = false := by
      intro e member
      exact Bool.eq_false_iff.mpr fun isBad => bad ⟨e,member,isBad⟩
    rw [or_iff_right bad]
    by_cases bare : ∀ e ∈ es, setting e.1 = true → e.2 = 0
    · obtain ⟨r,s,first,second,cpus,mem,net,net'⟩ := settle_pair valid bare .defaults .defaults rfl rfl
      rw [first,second,and_iff_right bare]
      have same : Except.ok r = (Except.ok s : Except IoError VmResources) ↔ r.net = s.net := by
        obtain ⟨c,m,n⟩ := r
        obtain ⟨c',m',n'⟩ := s
        simp_all
      rw [same,net,net',Bool.eq_iff_iff]
      simp only [VmResources.defaults,Bool.false_or,List.any_eq_true,decide_eq_true_eq]
      constructor
      · exact fun both => both.mp
      · exact fun one => ⟨one,fun ⟨e,member,named,_⟩ => ⟨e,member,named⟩⟩
    · obtain ⟨r,ran⟩ := settle_ok valid .defaults
      have spoiled := bare
      push Not at spoiled
      obtain ⟨e,member,sets,positive⟩ := spoiled
      rw [ran,padded_fails member sets (.inl positive)]
      refine ⟨fun same => ?_,fun both => absurd both.1 bare⟩
      cases same

theorem setting_inside (sets : setting name = true) : RSC <+: name := by
  rcases of_decide_eq_true sets with cpu | mem
  · exact (List.prefix_append _ _).trans cpu
  · exact (List.prefix_append _ _).trans mem

theorem process_inside (inside : RSC <+: name) (r : VmResources) :
    ∃ result : Except IoError VmResources, vmResourceLineProcess name r = result.map fun r => (true,r) := by
  cases name_effect name with
  | bad sets fails => exact ⟨.error (.ofKind .invalidData),by rw [fails r]; rfl⟩
  | cpus sets c runs => exact ⟨.ok {r with cpus:=c},by rw [runs r]; rfl⟩
  | mem sets m runs => exact ⟨.ok {r with mem:=m},by rw [runs r]; rfl⟩
  | other unset runs =>
    refine ⟨.ok (if name = RSC_NET then {r with net:=true} else r),?_⟩
    rw [runs r,decide_eq_true inside]
    rfl

theorem process_outside (outside : ¬RSC <+: name) (r : VmResources) : vmResourceLineProcess name r = .ok (false,r) := by
  cases name_effect name with
  | bad sets fails => exact absurd (setting_inside sets) outside
  | cpus sets c runs => exact absurd (setting_inside sets) outside
  | mem sets m runs => exact absurd (setting_inside sets) outside
  | other unset runs =>
    have differs : name ≠ RSC_NET := fun same => outside (same ▸ List.prefix_append _ _)
    rw [runs r,decide_eq_false outside,if_neg differs]

theorem scan_inside (names : List (List UInt8)) (r : VmResources) :
    scanNames r true names = settle r (names.takeWhile rscName) := by
  induction names generalizing r with
  | nil => rfl
  | cons name rest ih =>
    rw [scanNames]
    by_cases inside : RSC <+: name
    · have differs : name ≠ trailerName := by rintro rfl; exact absurd inside (by decide)
      obtain ⟨result,ran⟩ := process_inside inside r
      rw [if_neg differs,List.takeWhile_cons_of_pos (show rscName name = true from decide_eq_true inside),settle_cons,ran]
      cases result with
      | error e => rfl
      | ok r' => exact ih r'
    · rw [List.takeWhile_cons_of_neg (by simp [rscName,inside]),process_outside inside]
      simp only [if_true,ite_self]
      rfl

theorem scan_outside (names : List (List UInt8)) (r : VmResources) :
    scanNames r false names =
      settle r ((names.dropWhile fun name => !rscName name && !decide (name = trailerName)).takeWhile rscName) := by
  induction names with
  | nil => rfl
  | cons name rest ih =>
    by_cases inside : RSC <+: name
    · have differs : name ≠ trailerName := by rintro rfl; exact absurd inside (by decide)
      obtain ⟨result,ran⟩ := process_inside inside r
      rw [List.dropWhile_cons_of_neg (by simp [rscName,inside]),← scan_inside,scanNames,scanNames,ran]
      cases result with
      | error e => rfl
      | ok r' => rfl
    · rw [scanNames]
      by_cases last : name = trailerName
      · rw [if_pos last,List.dropWhile_cons_of_neg (by simp [last]),
          List.takeWhile_cons_of_neg (by simp [rscName,inside])]
        rfl
      · rw [if_neg last,process_outside inside,List.dropWhile_cons_of_pos (by simp [rscName,inside,last])]
        exact ih

theorem scan_padded (es : List (List UInt8 × Nat)) (r : VmResources) :
    scanNames r false (es.map padded) = settle r ((scanned es).map padded) := by
  have inside : ∀ e, rscName (padded e) = rsc e := by
    intro e
    have same : RSC <+: padded e ↔ RSC <+: e.1 := prefix_padded (by decide) e.1 e.2
    rw [rsc,rscName,rscName,decide_eq_decide,same]
  have last : ∀ e, decide (padded e = trailerName) = ending e := by
    intro e
    have same : padded e = trailerName ↔ e.1 = trailerName ∧ e.2 = 0 := padded_eq (by decide) e.1 e.2
    simp only [same,ending]
  rw [scan_outside,List.dropWhile_map,List.takeWhile_map]
  simp only [Function.comp_def,inside,last]
  rfl

-- An unpadded archive ends at any TRAILER!!!, also one that padding would hide.
theorem scan_plain (es : List (List UInt8 × Nat)) (r : VmResources) :
    scanNames r false (es.map Prod.fst) = settle r (if (skipped es).any fun e => decide (e.1 = trailerName) then []
      else (scanned es).map Prod.fst) := by
  rw [scan_outside,List.dropWhile_map,List.takeWhile_map]
  apply congrArg
  change (((es.dropWhile fun e => !rsc e && !decide (e.1 = trailerName)).takeWhile rsc).map Prod.fst) = _
  unfold skipped scanned
  induction es with
  | nil => rfl
  | cons e es ih =>
    by_cases inside : RSC <+: e.1
    · have kept : rsc e = true := decide_eq_true inside
      simp [kept]
    · have out : rsc e = false := decide_eq_false inside
      by_cases last : e.1 = trailerName
      · by_cases zero : e.2 = 0 <;> simp [out,ending,last,zero]
      · have goes : ending e = false := by simp [ending,last]
        rw [List.takeWhile_cons_of_pos (by simp [out,goes]),List.dropWhile_cons_of_pos (by simp [out,last]),
          List.dropWhile_cons_of_pos (by simp [out,goes]),List.any_cons,decide_eq_false last,Bool.false_or]
        exact ih

theorem scan_iff (es : List (List UInt8 × Nat)) :
    scanNames .defaults false (es.map Prod.fst) = scanNames .defaults false (es.map padded) ↔ Invisible es := by
  rw [scan_plain,scan_padded]
  unfold Invisible
  split
  · exact eq_comm
  · exact settle_iff _

-- ArchiveProperties::default() with the given data_align, as rapido-cut uses.
def cutProps (dataAlign : UInt32) : ArchiveProperties := {dataAlign}

-- The image that the calls and a trailer write. It is a file, so it has less
-- than 2^63 bytes.
structure Archived (props : ArchiveProperties) (calls : List Call) (img : List UInt8) : Prop where
  bodies : ∀ c ∈ calls, c ≠ .trailer
  written : ∃ before total after, (runCalls calls).run (.new props) = (.ok (),before) ∧
    archiveTrailer.run before = (.ok total,after) ∧ after.out = img
  bounded : img.length < 2^63

theorem resources_archived (ready : Aligned props) (limit : props.namesizeMax.toNat ≤ 4097)
    (archived : Archived props calls img) :
    vmResourcesGet img = some (scanNames .defaults false ((layout props 0 calls).map padded)) := by
  obtain ⟨before,total,after,ran,ended,rfl⟩ := archived.written
  have fresh : Archive.new props = synced props props.initialIno [] := by
    simp [Archive.new,ArchiveState.new,synced]
  rw [fresh] at ran
  obtain ⟨entries,ino,wrote,rfl,finish⟩ := runCalls_wrote ready rfl ran
  obtain ⟨_,rfl⟩ := Prod.mk.inj (ended.symm.trans (archiveTrailer_synced finish))
  have bounded := archived.bounded
  have names : entries.map visibleName = (layout props 0 calls).map padded := wrote_layout archived.bodies wrote
  rw [← names]
  simp only [synced,List.nil_append] at bounded ⊢
  refine loop_scans entries ?_ _ _ _ _ ?_ rfl (Nat.zero_le _) bounded
  · exact wrote_narrow ready limit archived.bodies wrote
  · have room : ∀ es : List Entry, es.length ≤ (es.flatMap Entry.encode).length := by
      intro es
      induction es with
      | nil => exact Nat.le_refl _
      | cons e es ih =>
        simp only [List.flatMap_cons,List.length_append,List.length_cons,length_encode,entryLen,NEWC_HDR_LEN]
        omega
    have fits := room entries
    simp only [List.length_append]
    omega

theorem alignment_invisible_iff (plain : Archived (cutProps 0) calls img) (aligned : Archived (cutProps 4096) calls img') :
    vmResourcesGet img = vmResourcesGet img' ↔ Invisible (layout (cutProps 4096) 0 calls) := by
  rw [resources_archived ⟨rfl,rfl⟩ (by decide) plain,resources_archived ⟨rfl,rfl⟩ (by decide) aligned,Option.some_inj,
    layout_unaligned rfl,← layout_names (cutProps 4096) 0]
  exact scan_iff _

def written (props : ArchiveProperties) (calls : List Call) : Archive := ((runCalls calls).run (.new props)).2
def image (props : ArchiveProperties) (calls : List Call) : List UInt8 := (archiveTrailer.run (written props calls)).2.out

-- A single call that its own checks admit is archived.
theorem archived_one (ready : Aligned props) (body : c ≠ .trailer) (admitted : ¬c.Rejects) (whole : ¬c.Short) :
    Archived props [c] (image props [c]) := by
  have fresh : Archive.new props = synced props props.initialIno [] := by
    simp [Archive.new,ArchiveState.new,synced]
  have outcome : Outcome props props.initialIno [] c (c.run.run (synced props props.initialIno [])) :=
    call_outcome ready.lands rfl c
  generalize ran : c.run.run (synced props props.initialIno []) = pair at outcome
  cases outcome with
  | rejected checked kind => exact absurd checked admitted
  | short _ cut kind => exact absurd cut whole
  | wrote _ entry described =>
    rw [List.nil_append] at ran
    have run : (runCalls [c]).run (.new props) = (.ok (),synced props (c.nextIno props.initialIno) entry.encode) := by
      rw [fresh,runCalls,Eff.bind_run_ok ran]
      rfl
    have ended : archiveTrailer.run (synced props (c.nextIno props.initialIno) entry.encode) = (.ok _,_) :=
      archiveTrailer_synced entry.encode_aligned
    have same : image props [c] = entry.encode ++ trailerEntry.encode := by
      rw [image,written,run,ended,synced]
    refine ⟨by simpa using body,⟨_,_,_,run,ended,same.symm⟩,?_⟩
    have narrow := entry.narrow
    have sized := entry.sized
    have limit := entry.md.len.toNat_lt
    have last : trailerEntry.encode.length = 124 := by rw [length_encode]; decide
    have namePad := pad4_lt (NEWC_HDR_LEN + entry.name.length)
    have dataPad := pad4_lt entry.data.length
    rw [same,List.length_append,last,length_encode,entryLen]
    simp only [NEWC_HDR_LEN] at namePad ⊢
    omega

-- rapido-rsc/cpu/4, as an empty file and as one of 4097 bytes
def smallCpu : List Call := [.path (RSC_CPU ++ [52]) ⟨1,0o100644,0,0,0,0,0,0⟩]
def largeCpu : List Call := [.file (RSC_CPU ++ [52]) ⟨1,0o100644,0,0,0,0,0,4097⟩ (zeros 4097)]

theorem alignment_invisible_small :
    vmResourcesGet (image (cutProps 0) smallCpu) = vmResourcesGet (image (cutProps 4096) smallCpu) := by
  have trimmed : pathTrimPrefixes (RSC_CPU ++ [52]) = .ok (RSC_CPU ++ [52]) := by decide +kernel
  have admitted : ¬(Call.path (RSC_CPU ++ [52]) ⟨1,0o100644,0,0,0,0,0,0⟩).Rejects := by
    simp [Call.Rejects,trimmed]
    decide
  have plain : Archived (cutProps 0) smallCpu _ := archived_one ⟨rfl,rfl⟩ (by simp) admitted id
  have aligned : Archived (cutProps 4096) smallCpu _ := archived_one ⟨rfl,rfl⟩ (by simp) admitted id
  apply (alignment_invisible_iff plain aligned).mpr
  unfold Invisible
  decide +kernel

theorem alignment_visible_large :
    Archived (cutProps 0) largeCpu (image (cutProps 0) largeCpu) ∧
    Archived (cutProps 4096) largeCpu (image (cutProps 4096) largeCpu) ∧
    vmResourcesGet (image (cutProps 0) largeCpu) ≠ vmResourcesGet (image (cutProps 4096) largeCpu) := by
  have trimmed : pathTrimPrefixes (RSC_CPU ++ [52]) = .ok (RSC_CPU ++ [52]) := by decide +kernel
  have admitted : ¬(Call.file (RSC_CPU ++ [52]) ⟨1,0o100644,0,0,0,0,0,4097⟩ (zeros 4097)).Rejects := by
    simp [Call.Rejects,trimmed]
    decide
  have whole : ¬(Call.file (RSC_CPU ++ [52]) ⟨1,0o100644,0,0,0,0,0,4097⟩ (zeros 4097)).Short := by
    rintro ⟨_,differs⟩
    exact differs (by rw [length_zeros]; rfl)
  have plain : Archived (cutProps 0) largeCpu (image (cutProps 0) largeCpu) :=
    archived_one ⟨rfl,rfl⟩ (by simp) admitted whole
  have aligned : Archived (cutProps 4096) largeCpu (image (cutProps 4096) largeCpu) :=
    archived_one ⟨rfl,rfl⟩ (by simp) admitted whole
  refine ⟨plain,aligned,?_⟩
  rw [resources_archived ⟨rfl,rfl⟩ (by decide) plain,resources_archived ⟨rfl,rfl⟩ (by decide) aligned]
  decide +kernel

end Rapido.Vm

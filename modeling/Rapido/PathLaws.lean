import Rapido.UnixPath

-- How components, parent and join act on absolute paths.
namespace Rapido.UnixPath

-- What read_dir returns and what a normal component holds.
def ValidName (name : List UInt8) : Prop := name ≠ [] ∧ slash ∉ name ∧ name ≠ [dot] ∧ name ≠ [dot,dot]

def Component.name : Component → Option (List UInt8)
  | .normal name => some name
  | _ => none

theorem segments_append (front back : Path) : segments (front ++ slash :: back) = segments front ++ segments back :=
  List.splitOn_append_cons_self front back

theorem segments_no_slash (present : part ∈ segments p) : slash ∉ part := by
  induction p generalizing part with
  | nil => simp_all [segments]
  | cons b rest ih =>
    by_cases separator : b = slash
    · subst separator
      have split := segments_append [] rest
      simp only [List.nil_append] at split
      rw [split] at present
      rcases List.mem_append.mp present with here | later
      · simp_all [segments]
      · exact ih later
    · unfold segments at present ih
      rw [List.splitOn_cons_eq_if_modifyHead] at present
      simp only [beq_iff_eq,separator,if_false] at present
      cases pieces : rest.splitOn slash with
      | nil => simp [pieces] at present
      | cons head tail =>
        rw [pieces] at present ih
        rcases List.mem_cons.mp present with rfl | later
        · have clean : slash ∉ head := ih List.mem_cons_self
          simp only [List.mem_cons,not_or]
          exact ⟨fun h => separator h.symm,clean⟩
        · exact ih (List.mem_cons_of_mem _ later)

@[simp] theorem body_nil : body [] = [] := by decide

theorem body_append (front back : Path) : body (front ++ slash :: back) = body front ++ body back := by
  rw [body,segments_append,List.filterMap_append]
  rfl

theorem body_slash (p : Path) : body (slash :: p) = body p := body_append [] p

theorem parseSingle_valid (valid : ValidName name) : parseSingle name = some (.normal name) := by
  obtain ⟨filled,_,notDot,notDots⟩ := valid
  simp [parseSingle,filled,notDot,notDots]

theorem parseSingle_normal (parsed : parseSingle piece = some (.normal name)) :
    name = piece ∧ piece ≠ [] ∧ piece ≠ [dot] ∧ piece ≠ [dot,dot] := by
  unfold parseSingle at parsed
  split at parsed
  · cases parsed
  · rename_i kept
    split at parsed
    · cases parsed
    · rename_i named
      cases parsed
      push Not at kept
      exact ⟨rfl,kept.1,kept.2,named⟩

theorem body_valid (member : .normal name ∈ body p) : ValidName name := by
  obtain ⟨piece,present,parsed⟩ := List.mem_filterMap.mp member
  obtain ⟨rfl,filled,notDot,notDots⟩ := parseSingle_normal parsed
  exact ⟨filled,segments_no_slash present,notDot,notDots⟩

theorem body_name (valid : ValidName name) : body name = [.normal name] := by
  have whole : segments name = [name] := List.splitOn_eq_singleton valid.2.1
  rw [body,whole]
  simp [parseSingle_valid valid]

theorem body_unsegments (clean : ∀ part ∈ parts, slash ∉ part) : body (unsegments parts) = parts.filterMap parseSingle := by
  by_cases empty : parts = []
  · subst empty
    decide
  · rw [body,segments,unsegments,List.splitOn_intercalate slash clean empty]

theorem valid_pushed (valid : ∀ m ∈ here, ValidName m) (last : ValidName name) : ∀ m ∈ here ++ [name], ValidName m := by
  intro m inside
  rcases List.mem_append.mp inside with old | new
  · exact valid m old
  · exact List.mem_singleton.mp new ▸ last

theorem isAbsolute_iff : isAbsolute p = true ↔ ∃ q, p = slash :: q := by
  cases p with
  | nil => simp [isAbsolute]
  | cons b rest => simp [isAbsolute]

theorem isAbsolute_cons (p : Path) : isAbsolute (slash :: p) = true := rfl

theorem includeCurDir_slash (p : Path) : includeCurDir (slash :: p) = false := by
  cases p <;> simp +decide [includeCurDir]

theorem components_absolute (rooted : isAbsolute p = true) : components p = .rootDir :: body p := by
  simp [components,rooted]

theorem components_valid (rooted : isAbsolute p = true) (inside : .normal name ∈ components p) : ValidName name := by
  rw [components_absolute rooted] at inside
  rcases List.mem_cons.mp inside with same | inside
  · cases same
  · exact body_valid inside

theorem valid_relative (valid : ValidName name) : isAbsolute name = false := by
  cases name with
  | nil => rfl
  | cons b rest =>
    have other : b ≠ slash := fun h => valid.2.1 (h ▸ List.mem_cons_self)
    simp [isAbsolute,other]

theorem join_absolute (rooted : isAbsolute p = true) : isAbsolute (join p q) = true := by
  obtain ⟨rest,rfl⟩ := isAbsolute_iff.mp rooted
  unfold join
  split
  · assumption
  · split <;> rfl

theorem body_join (relative : isAbsolute q = false) : body (join p q) = body p ++ body q := by
  unfold join
  rw [relative]
  simp only [Bool.false_eq_true,if_false]
  split
  · rename_i closed
    rcases List.eq_nil_or_concat p with rfl | ⟨front,b,rfl⟩
    · rfl
    · have separator : b = slash := by simpa using closed
      subst separator
      rw [List.concat_eq_append,List.append_assoc,List.singleton_append,body_append,body_append,body_nil,List.append_nil]
  · exact body_append p q

-- Joining a name adds it to the components, whatever the path.
theorem components_join (valid : ValidName name) (p : Path) : components (join p name) = components p ++ [.normal name] := by
  have relative := valid_relative valid
  have parts : body (join p name) = body p ++ [.normal name] := by rw [body_join relative,body_name valid]
  have undotted : includeCurDir name = false := by
    obtain ⟨_,clean,other,_⟩ := valid
    cases name with
    | nil => rfl
    | cons b name =>
      cases name with
      | nil => simpa [includeCurDir] using other
      | cons c name =>
        have plain : c ≠ slash := fun same => clean (by simp [same])
        simp [includeCurDir,plain]
  have front : isAbsolute (join p name) = isAbsolute p ∧ (isAbsolute p = false → includeCurDir (join p name) = includeCurDir p) := by
    unfold join
    rw [relative]
    cases p with
    | nil => exact ⟨relative,fun _ => undotted⟩
    | cons b p =>
      cases p with
      | nil =>
        by_cases root : b = slash
        · subst root
          exact ⟨rfl,nofun⟩
        · simp [isAbsolute,includeCurDir,root]
      | cons c p =>
        simp only [Bool.false_eq_true,if_false]
        split
        · exact ⟨rfl,fun _ => rfl⟩
        · exact ⟨rfl,fun _ => rfl⟩
  unfold components
  rw [parts,front.1]
  by_cases rooted : isAbsolute p = true
  · simp [rooted]
  · rw [Bool.not_eq_true] at rooted
    rw [front.2 rooted,List.append_assoc]

theorem trivialSegment_parse (trivial : trivialSegment piece = true) : parseSingle piece = none := by
  simpa [trivialSegment] using trivial

theorem filterMap_rdropWhile (parts : List (List UInt8)) :
    (parts.rdropWhile trivialSegment).filterMap parseSingle = parts.filterMap parseSingle := by
  induction parts using List.reverseRecOn with
  | nil => rfl
  | append_singleton front last ih =>
    by_cases trivial : trivialSegment last = true
    · rw [List.rdropWhile_concat_pos _ _ _ trivial,List.filterMap_append,ih]
      simp [trivialSegment_parse trivial]
    · rw [List.rdropWhile_concat_neg _ _ _ trivial]

theorem filterMap_dropWhile (parts : List (List UInt8)) :
    (parts.dropWhile trivialSegment).filterMap parseSingle = parts.filterMap parseSingle := by
  induction parts with
  | nil => rfl
  | cons part parts ih =>
    rw [List.dropWhile_cons]
    split
    · rename_i trivial
      rw [ih,List.filterMap_cons_none (trivialSegment_parse trivial)]
    · rfl

theorem filterMap_trivial (parts : List (List UInt8)) :
    parts.filterMap parseSingle = [] ↔ parts.dropWhile trivialSegment = [] := by
  rw [List.filterMap_eq_nil_iff,List.dropWhile_eq_nil_iff]
  simp [trivialSegment]

theorem unsegments_front (first : List UInt8) (rest : List (List UInt8)) : ∃ more, unsegments (first :: rest) = first ++ more := by
  cases rest with
  | nil => exact ⟨[],by rw [unsegments,List.intercalate_singleton,List.append_nil]⟩
  | cons second rest =>
    refine ⟨slash :: unsegments (second :: rest),?_⟩
    rw [unsegments,List.intercalate_cons_cons,List.append_assoc]
    rfl

-- What is left of a path starts with a segment that is a component.
theorem trimBody_front (bytes : List UInt8) : trimBody bytes = [] ∨
    ∃ first more, trimBody bytes = first ++ more ∧ slash ∉ first ∧ first ≠ [] ∧ first ≠ [dot] := by
  unfold trimBody
  cases parts : ((segments bytes).dropWhile trivialSegment).rdropWhile trivialSegment with
  | nil => exact .inl rfl
  | cons first rest =>
    obtain ⟨_,front⟩ := parts ▸ List.rdropWhile_prefix trivialSegment ((segments bytes).dropWhile trivialSegment)
    have kept : trivialSegment first = false := by
      have head := List.head?_dropWhile_not trivialSegment (segments bytes)
      rw [← front] at head
      exact head
    have present : first ∈ segments bytes := by
      apply (List.dropWhile_suffix _).subset
      rw [← front]
      exact List.mem_cons_self
    obtain ⟨more,shape⟩ := unsegments_front first rest
    refine .inr ⟨first,more,shape,segments_no_slash present,?_,?_⟩
    · rintro rfl
      exact absurd kept (by decide)
    · rintro rfl
      exact absurd kept (by decide)

theorem isAbsolute_trimBody (bytes : List UInt8) : isAbsolute (trimBody bytes) = false := by
  rcases trimBody_front bytes with empty | ⟨first,more,shape,clean,filled,_⟩
  · rw [empty]
    rfl
  · obtain ⟨b,first,rfl⟩ := List.exists_cons_of_ne_nil filled
    have plain : b ≠ slash := fun same => clean (by simp [same])
    simp [shape,isAbsolute,plain]

theorem includeCurDir_trimBody (bytes : List UInt8) : includeCurDir (trimBody bytes) = false := by
  rcases trimBody_front bytes with empty | ⟨first,more,shape,clean,filled,other⟩
  · rw [empty]
    rfl
  · rw [shape]
    obtain ⟨b,first,rfl⟩ := List.exists_cons_of_ne_nil filled
    cases first with
    | nil =>
      have plain : b ≠ dot := fun same => other (by rw [same])
      cases more <;> simp [includeCurDir,plain]
    | cons c first =>
      have inside : c ≠ slash := fun same => clean (by simp [same])
      simp [includeCurDir,inside]

theorem body_trimBody (bytes : List UInt8) : body (trimBody bytes) = body bytes := by
  have clean : ∀ part ∈ ((segments bytes).dropWhile trivialSegment).rdropWhile trivialSegment, slash ∉ part :=
    fun part inside => segments_no_slash ((List.dropWhile_suffix _).subset ((List.rdropWhile_prefix _ _).subset inside))
  unfold trimBody
  rw [body_unsegments clean,filterMap_rdropWhile,filterMap_dropWhile]
  rfl

theorem trimBody_nil_iff (bytes : List UInt8) : trimBody bytes = [] ↔ body bytes = [] := by
  constructor
  · intro empty
    rw [← body_trimBody,empty,body_nil]
  · intro empty
    unfold trimBody
    rw [(filterMap_trivial (segments bytes)).mp empty]
    rfl

-- The root or "." in front of a path is no component of its body.
theorem body_opened (opened : (isAbsolute p || includeCurDir p) = true) : body (p.drop 1) = body p := by
  rcases Bool.or_eq_true_iff.mp opened with rooted | here
  · obtain ⟨rest,rfl⟩ := isAbsolute_iff.mp rooted
    exact (body_slash rest).symm
  · cases p with
    | nil => cases here
    | cons b rest =>
      cases rest with
      | nil =>
        have only : b = dot := by simpa [includeCurDir] using here
        subst only
        decide
      | cons c rest =>
        obtain ⟨rfl,rfl⟩ : b = dot ∧ c = slash := by simpa [includeCurDir] using here
        have dotted : body [dot] = [] := by decide
        rw [List.drop_succ_cons,List.drop_zero,body_slash,show dot :: slash :: rest = [dot] ++ slash :: rest from rfl,body_append,
          dotted,List.nil_append]

theorem parent_absolute (rooted : isAbsolute p = true) :
    (parent p = none ∧ body p = []) ∨
      ∃ q last, parent p = some q ∧ isAbsolute q = true ∧ body p = body q ++ [last] := by
  obtain ⟨rest,rfl⟩ := isAbsolute_iff.mp rooted
  simp only [parent,isAbsolute_cons,includeCurDir_slash,Bool.or_false,if_true,List.take_succ_cons,List.take_zero,
    List.length_singleton,List.drop_succ_cons,List.drop_zero,body_slash]
  have parts : body rest = ((segments rest).rdropWhile trivialSegment).filterMap parseSingle :=
    (filterMap_rdropWhile _).symm
  rcases List.eq_nil_or_concat ((segments rest).rdropWhile trivialSegment) with empty | ⟨front,last,shape⟩
  · rw [empty] at parts ⊢
    exact .inl ⟨rfl,parts⟩
  · rw [List.concat_eq_append] at shape
    have kept : trivialSegment last = false := by
      have ending := List.rdropWhile_last_not trivialSegment (segments rest) (by rw [shape]; simp)
      simpa [shape] using ending
    obtain ⟨c,parsed⟩ : ∃ c, parseSingle last = some c :=
      Option.isSome_iff_exists.mp (by simpa [trivialSegment,Option.isSome_iff_ne_none] using kept)
    have clean : ∀ part ∈ front.rdropWhile trivialSegment, slash ∉ part := by
      intro part present
      have inside : part ∈ (segments rest).rdropWhile trivialSegment := by
        rw [shape]
        exact List.mem_append_left _ ((List.rdropWhile_prefix _ _).subset present)
      exact segments_no_slash ((List.rdropWhile_prefix _ _).subset inside)
    refine .inr ⟨slash :: unsegments (front.rdropWhile trivialSegment),c,?_,rfl,?_⟩
    · simp [shape]
    · rw [parts,shape,body_slash,body_unsegments clean,filterMap_rdropWhile,List.filterMap_append]
      simp [parsed]

theorem body_pushed (names : List (List UInt8)) (valid : ∀ name ∈ names, ValidName name) :
    body (slash :: unsegments names) = names.map .normal := by
  rw [body_slash,body_unsegments fun name present => (valid name present).2.1]
  induction names with
  | nil => rfl
  | cons name rest ih =>
    rw [List.filterMap_cons,parseSingle_valid (valid name List.mem_cons_self)]
    simp only [List.map_cons,ih fun other present => valid other (List.mem_cons_of_mem _ present)]

-- The components that std::path::absolute pushes.
def pushPart (here : Path) : Component → Path
  | .normal name => join here name
  | .parentDir => join here [dot,dot]
  | _ => here

def absoluteStart (cwd p : Path) : Path :=
  if isAbsolute p then (if [slash,slash] <+: p ∧ ¬[slash,slash,slash] <+: p then [slash,slash] else [slash]) else cwd

theorem absolute_pushed (made : absolute cwd p = some q) :
    q = (if p.getLast? = some slash then join ((body ((stripCurDir p).getD p)).foldl pushPart (absoluteStart cwd p)) []
      else (body ((stripCurDir p).getD p)).foldl pushPart (absoluteStart cwd p)) := by
  unfold absolute at made
  split at made
  · cases made
  · exact (Option.some.inj made).symm

theorem foldl_absolute (parts : List Component) (rooted : isAbsolute start = true) : isAbsolute (parts.foldl pushPart start) = true := by
  induction parts generalizing start with
  | nil => exact rooted
  | cons c rest ih =>
    apply ih
    cases c <;> first | exact rooted | exact join_absolute rooted

theorem absolute_absolute (based : isAbsolute cwd = true) (made : absolute cwd p = some q) : isAbsolute q = true := by
  have start : isAbsolute (absoluteStart cwd p) = true := by
    unfold absoluteStart
    split
    · split <;> rfl
    · exact based
  rw [absolute_pushed made]
  split
  · exact join_absolute (foldl_absolute _ start)
  · exact foldl_absolute _ start

theorem body_kinds (member : c ∈ body p) : c = .parentDir ∨ ∃ name, c = .normal name ∧ ValidName name := by
  cases c with
  | parentDir => exact .inl rfl
  | normal name => exact .inr ⟨name,rfl,body_valid member⟩
  | rootDir =>
    obtain ⟨piece,_,parsed⟩ := List.mem_filterMap.mp member
    unfold parseSingle at parsed
    split_ifs at parsed
    all_goals cases parsed
  | curDir =>
    obtain ⟨piece,_,parsed⟩ := List.mem_filterMap.mp member
    unfold parseSingle at parsed
    split_ifs at parsed
    all_goals cases parsed

theorem body_foldl (parts : List Component) (kinds : ∀ c ∈ parts, c = .parentDir ∨ ∃ name, c = .normal name ∧ ValidName name)
    (start : Path) : body (parts.foldl pushPart start) = body start ++ parts := by
  induction parts generalizing start with
  | nil => simp
  | cons c rest ih =>
    have later := ih fun c inside => kinds c (List.mem_cons_of_mem _ inside)
    rcases kinds c List.mem_cons_self with rfl | ⟨name,rfl,valid⟩
    · have above : body [dot,dot] = [.parentDir] := by decide
      rw [List.foldl_cons,later,pushPart,body_join (by decide),above]
      simp
    · rw [List.foldl_cons,later,pushPart,body_join (valid_relative valid),body_name valid]
      simp

-- std::path::absolute names the same components.
theorem absolute_components (based : isAbsolute cwd = true) (rooted : isAbsolute p = true) (made : absolute cwd p = some q) :
    components q = components p := by
  have undotted : stripCurDir p = none := by
    obtain ⟨rest,rfl⟩ := isAbsolute_iff.mp rooted
    simp [stripCurDir,includeCurDir_slash]
  have start : body (absoluteStart cwd p) = [] := by
    unfold absoluteStart
    rw [if_pos rooted]
    split <;> decide
  have whole := body_foldl (body p) (fun c => body_kinds) (absoluteStart cwd p)
  rw [start,List.nil_append] at whole
  rw [components_absolute (absolute_absolute based made),components_absolute rooted,absolute_pushed made,undotted,Option.getD_none]
  split
  · rw [body_join rfl,body_nil,List.append_nil,whole]
  · rw [whole]

-- Lexical normalisation from the root: a name is pushed, ".." pops.
def lexPush (here : List (List UInt8)) : Component → List (List UInt8)
  | .normal name => here ++ [name]
  | .parentDir => here.dropLast
  | _ => here

def lexNormal (cs : List Component) : List (List UInt8) := cs.foldl lexPush []

theorem lexNormal_pushed (names : List (List UInt8)) : lexNormal (.rootDir :: names.map .normal) = names := by
  have general : ∀ here : List (List UInt8), (names.map Component.normal).foldl lexPush here = here ++ names := by
    induction names with
    | nil => simp
    | cons name rest ih =>
      intro here
      simp [lexPush,ih]
  simpa [lexNormal,lexPush] using general []

end Rapido.UnixPath

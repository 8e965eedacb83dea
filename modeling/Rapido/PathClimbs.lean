import Rapido.PathLaws

-- Paths that lead above the root: ".." from a directory that has no parent.
namespace Rapido.UnixPath

def Component.isNormal : Component → Bool
  | .normal _ => true
  | _ => false

-- Reading the components from a directory that many levels below the root pops
-- above the root.
def climbsFrom : Nat → List Component → Bool
  | _,[] => false
  | 0,.parentDir :: _ => true
  | depth+1,.parentDir :: rest => climbsFrom depth rest
  | depth,.normal _ :: rest => climbsFrom (depth+1) rest
  | depth,.rootDir :: rest => climbsFrom depth rest
  | depth,.curDir :: rest => climbsFrom depth rest

def Climbs (p : Path) : Prop := climbsFrom 0 (components p) = true

instance : DecidablePred Climbs := fun p => inferInstanceAs (Decidable (climbsFrom 0 (components p) = true))

-- The last component is ".." and what is before it leads to the root.
def PopsRoot (p : Path) : Prop :=
  ∃ front, components p = front ++ [.parentDir] ∧ climbsFrom 0 front = false ∧ lexNormal front = []

theorem not_popsRoot (last : (components p).getLast? ≠ some .parentDir) : ¬PopsRoot p := by
  rintro ⟨front,shape,_⟩
  rw [shape] at last
  simp at last

theorem climbsFrom_concat (here : List (List UInt8)) (front : List Component) (last : Component)
    (climbs : climbsFrom here.length (front ++ [last]) = true) (level : climbsFrom here.length front = false) :
    last = .parentDir ∧ front.foldl lexPush here = [] := by
  induction front generalizing here with
  | nil =>
    cases last with
    | parentDir =>
      cases here with
      | nil => exact ⟨rfl,rfl⟩
      | cons name rest => cases climbs
    | normal name => cases climbs
    | rootDir => cases climbs
    | curDir => cases climbs
  | cons c front ih =>
    cases c with
    | parentDir =>
      cases depth : here.length with
      | zero =>
        rw [depth] at level
        cases level
      | succ n =>
        have shorter : here.dropLast.length = n := by simp [depth]
        rw [depth] at climbs level
        exact ih here.dropLast (shorter ▸ climbs) (shorter ▸ level)
    | normal name =>
      have longer : (here ++ [name]).length = here.length + 1 := by simp
      exact ih (here ++ [name]) (longer ▸ climbs) (longer ▸ level)
    | rootDir => exact ih here climbs level
    | curDir => exact ih here climbs level

theorem climbsFrom_append_normal (depth : Nat) (front : List Component) (name : (List UInt8)) :
    climbsFrom depth (front ++ [.normal name]) = climbsFrom depth front := by
  induction front generalizing depth with
  | nil => rfl
  | cons c front ih =>
    cases c with
    | parentDir =>
      cases depth with
      | zero => rfl
      | succ n => exact ih n
    | normal _ => exact ih _
    | rootDir => exact ih _
    | curDir => exact ih _

theorem climbsFrom_normal (depth : Nat) (names : List (List UInt8)) : climbsFrom depth (names.map .normal) = false := by
  induction names generalizing depth with
  | nil => rfl
  | cons name rest ih => exact ih _

-- Some prefix of the components has more ".." than names.
def Overpops (cs : List Component) : Prop :=
  ∃ front, front <+: cs ∧ front.countP Component.isNormal < front.count .parentDir

theorem climbsFrom_iff (depth : Nat) (cs : List Component) :
    climbsFrom depth cs = true ↔ ∃ front, front <+: cs ∧ depth + front.countP Component.isNormal < front.count .parentDir := by
  induction cs generalizing depth with
  | nil =>
    constructor
    · intro climbs
      cases climbs
    · rintro ⟨front,inside,more⟩
      cases List.prefix_nil.mp inside
      cases more
  | cons c rest ih =>
    -- the empty prefix never counts
    have shift : (∃ front, front <+: c :: rest ∧ depth + front.countP Component.isNormal < front.count .parentDir) ↔
        ∃ front, front <+: rest ∧ depth + (c :: front).countP Component.isNormal < (c :: front).count .parentDir := by
      constructor
      · rintro ⟨front,inside,more⟩
        rcases List.prefix_cons_iff.mp inside with rfl | ⟨tail,rfl,shorter⟩
        · cases more
        · exact ⟨tail,shorter,more⟩
      · rintro ⟨tail,shorter,more⟩
        exact ⟨c :: tail,List.prefix_cons_iff.mpr (.inr ⟨tail,rfl,shorter⟩),more⟩
    rw [shift]
    cases c with
    | parentDir =>
      cases depth with
      | zero => exact ⟨fun _ => ⟨[],List.nil_prefix,Nat.zero_lt_one⟩,fun _ => rfl⟩
      | succ n =>
        refine (ih n).trans (exists_congr fun front => and_congr_right fun _ => ?_)
        simp [Component.isNormal]
        omega
    | normal name =>
      refine (ih (depth + 1)).trans (exists_congr fun front => and_congr_right fun _ => ?_)
      simp [List.countP_cons,Component.isNormal]
      omega
    | rootDir =>
      refine (ih depth).trans (exists_congr fun front => and_congr_right fun _ => ?_)
      simp [Component.isNormal]
    | curDir =>
      refine (ih depth).trans (exists_congr fun front => and_congr_right fun _ => ?_)
      simp [Component.isNormal]

theorem climbs_iff (p : Path) : Climbs p ↔ Overpops (components p) := by
  unfold Climbs Overpops
  simpa using climbsFrom_iff 0 (components p)

-- A path that climbs does so before its last component, or with it.
theorem climbs_parent (absolute : isAbsolute p = true) (climbs : Climbs p) :
    PopsRoot p ∨ ∃ q, parent p = some q ∧ isAbsolute q = true ∧ Climbs q := by
  rcases parent_absolute absolute with ⟨_,empty⟩ | ⟨q,last,found,rooted,appended⟩
  · unfold Climbs at climbs
    rw [components_absolute absolute,empty] at climbs
    cases climbs
  · by_cases above : Climbs q
    · exact .inr ⟨q,found,rooted,above⟩
    · have shape : components p = components q ++ [last] := by
        rw [components_absolute absolute,components_absolute rooted,appended]
        rfl
      unfold Climbs at climbs above
      rw [shape] at climbs
      rw [Bool.not_eq_true] at above
      obtain ⟨rfl,top⟩ := climbsFrom_concat [] (components q) last climbs above
      exact .inl ⟨components q,shape,above,top⟩

theorem segments_head (relative : isAbsolute p = false) (split : segments p = [] :: rest) : p = [] := by
  have whole : unsegments (segments p) = p := List.intercalate_splitOn slash
  rw [split] at whole
  cases rest with
  | nil => exact whole.symm
  | cons second rest =>
    rw [unsegments,List.intercalate_cons_cons] at whole
    rw [← whole] at relative
    cases relative

theorem unsegments_relative (relative : isAbsolute p = false) (inside : parts <+: segments p) :
    isAbsolute (unsegments parts) = false := by
  cases parts with
  | nil => rfl
  | cons first others =>
    obtain ⟨more,split⟩ := inside
    rw [List.cons_append] at split
    cases first with
    | nil =>
      -- only the empty path has a leading empty segment and no slash
      have empty := segments_head relative split.symm
      subst empty
      have last : others ++ more = [] := (List.cons.inj (split.trans (show segments [] = [[]] by decide))).2
      rw [List.append_eq_nil_iff] at last
      rw [last.1]
      rfl
    | cons b first =>
      have member : b :: first ∈ segments p := split ▸ List.mem_cons_self
      have other : b ≠ slash := fun same => segments_no_slash member (same ▸ List.mem_cons_self)
      cases others with
      | nil =>
        rw [unsegments,List.intercalate_singleton]
        simp [isAbsolute,other]
      | cons second others =>
        rw [unsegments,List.intercalate_cons_cons]
        simp [isAbsolute,other]

theorem parent_relative (relative : isAbsolute p = false) (found : parent p = some q) : isAbsolute q = false := by
  unfold parent at found
  by_cases here : includeCurDir p = true
  · have dotted : p.head? = some dot := by
      unfold includeCurDir at here
      split at here
      · simpa using here
      · simp only [Bool.and_eq_true,beq_iff_eq] at here
        simp [here.1]
      · cases here
    obtain ⟨rest,rfl⟩ := List.head?_eq_some_iff.mp dotted
    simp only [here,Bool.or_true,if_true,List.take_succ_cons,List.take_zero] at found
    split at found
    · cases found
      rfl
    · cases found
      rfl
  · simp only [relative,here,Bool.false_or,Bool.false_eq_true,if_false,List.length_nil,List.drop_zero,List.nil_append] at found
    split at found
    · cases found
    · cases found
      have inside := (List.rdropWhile_prefix trivialSegment ((segments p).rdropWhile trivialSegment).dropLast).trans
        ((List.dropLast_prefix _).trans (List.rdropWhile_prefix trivialSegment (segments p)))
      exact unsegments_relative relative inside

theorem parent_bare (bare : parent p = none) : components p = [.rootDir] ∨ components p = [] := by
  by_cases absolute : isAbsolute p = true
  · rcases parent_absolute absolute with ⟨_,empty⟩ | ⟨q,_,found,_⟩
    · rw [components_absolute absolute,empty]
      exact .inl rfl
    · rw [bare] at found
      cases found
  · rw [Bool.not_eq_true] at absolute
    unfold parent at bare
    by_cases here : includeCurDir p = true
    · simp only [here,Bool.or_true,if_true] at bare
      split_ifs at bare
    · simp only [absolute,here,Bool.false_or,Bool.false_eq_true,if_false,List.length_nil,List.drop_zero] at bare
      split at bare
      · rename_i trivial
        have empty : body p = [] := by
          unfold body
          rw [← filterMap_rdropWhile,trivial]
          rfl
        unfold components
        rw [absolute,empty,if_neg Bool.noConfusion,if_neg here]
        exact .inr rfl
      · cases bare

theorem parent_none (bare : parent p = none) : ¬Climbs p := by
  unfold Climbs
  rcases parent_bare bare with root | empty
  · rw [root]
    exact Bool.noConfusion
  · rw [empty]
    exact Bool.noConfusion

theorem climbs_child (valid : ValidName name) : Climbs (join p name) ↔ Climbs p := by
  unfold Climbs
  rw [components_join valid,climbsFrom_append_normal]

theorem parent_shorter (found : parent p = some q) (rooted : isAbsolute q = true) :
    isAbsolute p = true ∧ (components q).length < (components p).length := by
  by_cases absolute : isAbsolute p = true
  · rcases parent_absolute absolute with ⟨none,_⟩ | ⟨r,last,again,_,appended⟩
    · rw [found] at none
      cases none
    · rw [found] at again
      cases again
      refine ⟨absolute,?_⟩
      rw [components_absolute rooted,components_absolute absolute,appended]
      simp
  · rw [parent_relative (by simpa using absolute) found] at rooted
    cases rooted

end Rapido.UnixPath

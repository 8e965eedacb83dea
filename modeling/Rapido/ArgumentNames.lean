import Rapido.Arguments

-- How arguments are spelled and which entry of the list a name stands for.
namespace Rapido.Arguments
open Text

-- A number of dashes and what follows them.
def dashed (n : Nat) (body : Str) : Str := List.replicate n '-' ++ body

theorem dashed_body (plain : startsWith '-' body = false) : (dashed n body).dropWhile (· = '-') = body := by
  unfold dashed
  rw [List.dropWhile_append_of_pos fun c inside => by simpa using List.eq_of_mem_replicate inside]
  cases body with
  | nil => rfl
  | cons c rest =>
    have other : c ≠ '-' := by simpa [startsWith] using plain
    rw [List.dropWhile_cons_of_neg (by simpa using other)]

theorem body_dashed (two : ['-','-'] <+: arg) : ∃ n, 2 ≤ n ∧ arg = dashed n (arg.dropWhile (· = '-')) := by
  have dashes : ∀ c ∈ arg.takeWhile (· = '-'), c = '-' := fun c inside => by simpa using List.mem_takeWhile_imp inside
  refine ⟨(arg.takeWhile (· = '-')).length,?_,?_⟩
  · obtain ⟨rest,rfl⟩ := two
    simp
  · unfold dashed
    rw [← List.eq_replicate_of_mem dashes,List.takeWhile_append_dropWhile]

theorem dashed_two (two : 2 ≤ n) : ['-','-'] <+: dashed n body := by
  obtain ⟨m,rfl⟩ := Nat.exists_eq_add_of_le two
  unfold dashed
  rw [List.replicate_add,List.append_assoc]
  exact List.prefix_append ..

theorem dashed_more (plain : startsWith '-' body = false) (more : body ≠ []) : dashed n body ≠ ['-','-'] := by
  intro same
  have dropped := congrArg (List.dropWhile (· = '-')) same
  rw [dashed_body plain] at dropped
  exact more (by simpa using dropped)

theorem splitOnce_none (absent : c ∉ s) : splitOnce c s = none := by
  cases cut : splitOnce c s with
  | none => rfl
  | some pair =>
    obtain ⟨front,rest⟩ := pair
    rw [splitOnce_eq cut] at absent
    exact absurd (List.mem_append_right _ List.mem_cons_self) absent

theorem topArg_name (two : 2 ≤ n) (plain : startsWith '-' name = false) (named : name ≠ []) (whole : '=' ∉ name) :
    topArg (dashed n name) = .named name := by
  unfold topArg longArg
  rw [if_neg (dashed_more plain named),if_pos (dashed_two two),dashed_body plain,splitOnce_none whole]

theorem topArg_assign (two : 2 ≤ n) (plain : startsWith '-' name = false) (named : name ≠ []) (whole : '=' ∉ name) (given : value ≠ []) :
    topArg (dashed n (name ++ '=' :: value)) = .assigned name value := by
  have front : startsWith '-' (name ++ '=' :: value) = false := by
    cases name with
    | nil => exact absurd rfl named
    | cons c rest => exact plain
  unfold topArg longArg
  rw [if_neg (dashed_more front (by simp)),if_pos (dashed_two two),dashed_body front,splitOnce_at whole]
  simp only [if_neg named,if_neg given]

theorem longArg_cases (read : longArg param = kind) : kind = .named param ∨ (∃ text, kind = .refused (.badSyntax text)) ∨
    ∃ name value, kind = .assigned name value ∧ param = name ++ '=' :: value ∧ name ≠ [] ∧ value ≠ [] := by
  rw [← read]
  unfold longArg
  cases cut : splitOnce '=' param with
  | none => exact .inl rfl
  | some pair =>
    obtain ⟨name,value⟩ := pair
    refine .inr ?_
    dsimp only
    split
    · exact .inl ⟨_,rfl⟩
    · split
      · exact .inl ⟨_,rfl⟩
      · exact .inr ⟨name,value,rfl,splitOnce_eq cut,‹_›,‹_›⟩

-- The spellings that State::Top tells apart.
inductive Shape : Str → TopArg → Prop where
  | dashes : Shape ['-','-'] .dashes
  | long (two : 2 ≤ n) (read : longArg param = kind) : Shape (dashed n param) kind
  | bare : Shape ['-'] (.refused (.badSyntax "expected argument short name after `-`"))
  | wide (bytes : c.utf8Size ≠ 1) : Shape ('-' :: c :: rest) (.refused .panic)
  | short : Shape ('-' :: c :: rest) (.short [c] (if rest = [] then none else some rest))
  | plain (undashed : startsWith '-' arg = false) : Shape arg .plain

theorem topArg_shape (arg : Str) : Shape arg (topArg arg) := by
  unfold topArg
  split
  · subst arg
    exact .dashes
  · split
    · rename_i two
      obtain ⟨n,least,spelled⟩ := body_dashed two
      rw [spelled]
      exact .long least (by rw [← spelled])
    · split
      · exact .bare
      · split
        · exact .wide ‹_›
        · exact .short
      · rename_i single several
        refine .plain ?_
        cases arg with
        | nil => rfl
        | cons c rest =>
          have other : c ≠ '-' := by
            rintro rfl
            cases rest with
            | nil => exact single rfl
            | cons d rest => exact several d rest rfl
          simpa [startsWith] using other

theorem topArg_dashes (read : topArg arg = .dashes) : arg = ['-','-'] := by
  have shape := topArg_shape arg
  rw [read] at shape
  cases shape with
  | dashes => rfl
  | long two read => rcases longArg_cases read with ⟨⟨⟩⟩ | ⟨_,⟨⟩⟩ | ⟨_,_,⟨⟩,_⟩

theorem topArg_short (read : topArg arg = .short name value) : ∃ c, name = [c] := by
  have shape := topArg_shape arg
  rw [read] at shape
  cases shape with
  | short => exact ⟨_,rfl⟩
  | long two read => rcases longArg_cases read with ⟨⟨⟩⟩ | ⟨_,⟨⟩⟩ | ⟨_,_,⟨⟩,_⟩

theorem topArg_named (read : topArg arg = .named name) : ∃ n, 2 ≤ n ∧ arg = dashed n name := by
  have shape := topArg_shape arg
  rw [read] at shape
  cases shape with
  | long two read =>
    rcases longArg_cases read with ⟨⟨⟩⟩ | ⟨_,⟨⟩⟩ | ⟨_,_,⟨⟩,_⟩
    exact ⟨_,two,rfl⟩

theorem topArg_assigned (read : topArg arg = .assigned name value) :
    ∃ n, 2 ≤ n ∧ arg = dashed n (name ++ '=' :: value) ∧ name ≠ [] ∧ value ≠ [] := by
  have shape := topArg_shape arg
  rw [read] at shape
  cases shape with
  | long two read =>
    rcases longArg_cases read with ⟨⟨⟩⟩ | ⟨_,⟨⟩⟩ | ⟨_,_,⟨⟩,rfl,both⟩
    exact ⟨_,two,rfl,both⟩

-- A slice inside a character, after a single dash.
theorem topArg_panic (read : topArg arg = .refused .panic) : ∃ c rest, arg = '-' :: c :: rest ∧ c.utf8Size ≠ 1 := by
  have shape := topArg_shape arg
  rw [read] at shape
  cases shape with
  | wide bytes => exact ⟨_,_,rfl,bytes⟩
  | long two read => rcases longArg_cases read with ⟨⟨⟩⟩ | ⟨_,⟨⟩⟩ | ⟨_,_,⟨⟩,_⟩

-- A name does not go both with and without a value.
theorem matchLoop_exclusive (plain : ∀ arg ∈ argList, arg.valueMode ≠ .optional) (bare : matchLoop name none none argList = .ok found)
    (valued : matchLoop name (some value) none argList = .ok again) : found = none := by
  induction argList with
  | nil =>
    cases bare
    rfl
  | cons arg rest ih =>
    have others := ih fun other inside => plain other (List.mem_cons_of_mem _ inside)
    unfold matchLoop at bare valued
    by_cases short : shortMatches arg name
    · rw [if_pos short] at bare valued
      cases takes : arg.value.isSome with
      | true => simp [takes] at bare
      | false => simp [takes] at valued
    · rw [if_neg short] at bare valued
      by_cases long : arg.long = name
      · have mode := plain arg List.mem_cons_self
        cases kind : arg.valueMode with
        | required => simp [long,kind] at bare
        | disallowed => simp [long,kind] at valued
        | optional => exact absurd kind mode
      · rw [if_neg fun both => long both.2] at bare valued
        exact others bare valued

theorem matchArgument_ok : matchArgument argList name value = .ok long ↔ matchLoop name value none argList = .ok (some long) := by
  unfold matchArgument
  cases matchLoop name value none argList with
  | error e => exact ⟨nofun,nofun⟩
  | ok found =>
    cases found with
    | none => exact ⟨nofun,nofun⟩
    | some other =>
      constructor
      · rintro ⟨⟩
        rfl
      · rintro ⟨⟩
        rfl

-- How the constructors of Argument make one.
def Made (arg : Argument) : Prop := arg.value.isSome = true ↔ arg.valueMode ≠ .disallowed

instance (arg : Argument) : Decidable (Made arg) := inferInstanceAs (Decidable (_ ↔ _))

def Allows (arg : Argument) (value : Option Str) : Prop :=
  (arg.valueMode = .required → value.isSome = true) ∧ (arg.valueMode = .disallowed → value = none)

-- The long name in the end is the one from before or that of an argument which
-- goes with the value.
theorem matchLoop_allows {found : Option Str} (made : ∀ arg ∈ argList, Made arg)
    (ended : matchLoop name value found argList = .ok (some long)) :
    found = some long ∨ ∃ arg ∈ argList, arg.long = long ∧ Allows arg value := by
  induction argList generalizing found with
  | nil => exact .inl (Except.ok.inj ended)
  | cons arg rest ih =>
    have others : ∀ {found : Option Str}, matchLoop name value found rest = .ok (some long) →
        found = some long ∨ ∃ arg' ∈ arg :: rest, arg'.long = long ∧ Allows arg' value := by
      intro found ran
      refine (ih (fun other inside => made other (List.mem_cons_of_mem _ inside)) ran).imp_right ?_
      rintro ⟨other,inside,here⟩
      exact ⟨other,List.mem_cons_of_mem _ inside,here⟩
    -- this argument is the one, or a later one takes over
    have replaced : matchLoop name value (some arg.long) rest = .ok (some long) → Allows arg value →
        ∃ arg' ∈ arg :: rest, arg'.long = long ∧ Allows arg' value := by
      intro ran allows
      rcases others ran with same | later
      · exact ⟨arg,List.mem_cons_self,Option.some.inj same,allows⟩
      · exact later
    have kind : arg.value.isSome = true ↔ arg.valueMode ≠ .disallowed := made arg List.mem_cons_self
    unfold matchLoop at ended
    split at ended
    · split at ended
      · cases ended
      · rename_i same
        refine .inr (replaced ended ⟨fun required => ?_,fun disallowed => ?_⟩)
        · rw [not_not.mp same,kind,required]
          exact nofun
        · have none : arg.value.isSome = false := by
            rw [Bool.eq_false_iff]
            exact fun takes => kind.mp takes disallowed
          rw [none] at same
          exact Option.isSome_eq_false_iff.mp (not_not.mp same) |> Option.isNone_iff_eq_none.mp
    · split at ended
      · split at ended
        · cases ended
        · split at ended
          · cases ended
          · rename_i lacking extra
            refine .inr (replaced ended ⟨fun required => ?_,fun disallowed => ?_⟩)
            · cases value with
              | none => exact absurd ⟨rfl,required⟩ lacking
              | some v => rfl
            · cases value with
              | none => rfl
              | some v => exact absurd ⟨rfl,disallowed⟩ extra
      · exact others ended

theorem matchArgument_allows (made : ∀ arg ∈ argList, Made arg) (known : matchArgument argList name value = .ok long) :
    ∃ arg ∈ argList, arg.long = long ∧ Allows arg value :=
  (matchLoop_allows made (matchArgument_ok.mp known)).resolve_left nofun

-- How an argument may be named.
def Named (arg : Argument) (name : Str) : Prop := (∃ c, arg.short = some c ∧ c.utf8Size = 1 ∧ name = [c]) ∨ arg.long = name

theorem utf8Len_nil (empty : utf8Len s = 0) : s = [] := by
  cases s with
  | nil => rfl
  | cons c s =>
    rw [utf8Len_cons] at empty
    have positive := c.utf8Size_pos
    omega

theorem shortMatches_iff : shortMatches arg name ↔ ∃ c, arg.short = some c ∧ c.utf8Size = 1 ∧ name = [c] := by
  constructor
  · rintro ⟨single,c,short,head⟩
    obtain ⟨rest,rfl⟩ := List.head?_eq_some_iff.mp head
    have positive := c.utf8Size_pos
    rw [utf8Len_cons] at single
    have last : rest = [] := utf8Len_nil (by omega)
    subst last
    exact ⟨c,short,by omega,rfl⟩
  · rintro ⟨c,short,single,rfl⟩
    exact ⟨by simpa [utf8Len] using single,c,short,rfl⟩

-- No name stands for two arguments.
def Distinct (argList : List Argument) : Prop := argList.Pairwise fun a b => ∀ name, ¬(Named a name ∧ Named b name)

theorem distinct_of_names (apart : argList.Pairwise fun a b => a.long ≠ b.long ∧ a.short.map (fun c => [c]) ≠ some b.long ∧
    b.short.map (fun c => [c]) ≠ some a.long ∧ (a.short = none ∨ a.short ≠ b.short)) : Distinct argList := by
  refine apart.imp ?_
  rintro a b ⟨longs,first,second,shorts⟩ name ⟨⟨c,short,_,rfl⟩ | rfl,⟨d,other,_,same⟩ | same⟩
  · cases same
    rcases shorts with none | apart
    · cases none.symm.trans short
    · exact apart (short.trans other.symm)
  · exact first (by rw [short,same]; rfl)
  · exact second (by rw [other,same]; rfl)
  · exact longs same.symm

-- An argument that has a value takes one and the others take none.
theorem allows_iff (made : Made arg) (plain : arg.valueMode ≠ .optional) : Allows arg value ↔ value.isSome = arg.value.isSome := by
  unfold Made at made
  unfold Allows
  cases mode : arg.valueMode with
  | required =>
    have takes : arg.value.isSome = true := made.mpr (by rw [mode]; exact nofun)
    rw [takes]
    exact ⟨fun both => both.1 rfl,fun same => ⟨fun _ => same,nofun⟩⟩
  | disallowed =>
    have none : arg.value.isSome = false := Bool.eq_false_iff.mpr fun takes => made.mp takes mode
    rw [none,Option.isSome_eq_false_iff,Option.isNone_iff_eq_none]
    exact ⟨fun both => both.2 rfl,fun same => ⟨nofun,fun _ => same⟩⟩
  | optional => exact absurd mode plain

-- The loop passes over what goes by other names.
theorem matchLoop_others (others : ∀ arg ∈ argList, ¬Named arg name) : matchLoop name value found argList = .ok found := by
  induction argList with
  | nil => rfl
  | cons arg rest ih =>
    have this := others arg List.mem_cons_self
    unfold matchLoop
    rw [if_neg fun short => this (.inl (shortMatches_iff.mp short)),if_neg fun both => this (.inr both.2)]
    exact ih fun other inside => others other (List.mem_cons_of_mem _ inside)

theorem matchLoop_named (made : Made arg) (plain : arg.valueMode ≠ .optional) (named : Named arg name)
    (others : ∀ other ∈ rest, ¬Named other name) :
    matchLoop name value none (arg :: rest) = .ok (some long) ↔ arg.long = long ∧ Allows arg value := by
  have passed : matchLoop name value (some arg.long) rest = .ok (some arg.long) := matchLoop_others others
  have allowed : Allows arg value ↔ value.isSome = arg.value.isSome := allows_iff made plain
  unfold matchLoop
  by_cases short : shortMatches arg name
  · rw [if_pos short,allowed]
    by_cases same : value.isSome = arg.value.isSome
    · rw [if_neg (not_not.mpr same),passed]
      simp [same]
    · rw [if_pos same]
      simp [same]
  · have long' : arg.long = name := named.resolve_left fun found => short (shortMatches_iff.mpr found)
    rw [if_neg short,if_pos ⟨rfl,long'⟩]
    unfold Allows
    cases value with
    | none =>
      cases mode : arg.valueMode with
      | required => simp
      | disallowed => simp [passed]
      | optional => exact absurd mode plain
    | some v =>
      cases mode : arg.valueMode with
      | required => simp [passed]
      | disallowed => simp
      | optional => exact absurd mode plain

theorem matchArgument_iff (made : ∀ arg ∈ argList, Made arg) (plain : ∀ arg ∈ argList, arg.valueMode ≠ .optional)
    (distinct : Distinct argList) :
    matchArgument argList name value = .ok long ↔ ∃ arg ∈ argList, Named arg name ∧ arg.long = long ∧ Allows arg value := by
  rw [matchArgument_ok]
  induction argList with
  | nil => exact ⟨nofun,nofun⟩
  | cons arg rest ih =>
    obtain ⟨apart,later⟩ := List.pairwise_cons.mp distinct
    by_cases named : Named arg name
    · have others : ∀ other ∈ rest, ¬Named other name := fun other inside again => apart other inside name ⟨named,again⟩
      rw [matchLoop_named (made arg List.mem_cons_self) (plain arg List.mem_cons_self) named others]
      constructor
      · exact fun both => ⟨arg,List.mem_cons_self,named,both⟩
      · rintro ⟨other,inside,again,both⟩
        rcases List.mem_cons.mp inside with rfl | more
        · exact both
        · exact absurd again (others other more)
    · have skipped : matchLoop name value none (arg :: rest) = matchLoop name value none rest := by
        rw [matchLoop,if_neg fun short => named (.inl (shortMatches_iff.mp short)),if_neg fun both => named (.inr both.2)]
      rw [skipped,ih (fun other inside => made other (List.mem_cons_of_mem _ inside))
        (fun other inside => plain other (List.mem_cons_of_mem _ inside)) later]
      constructor
      · rintro ⟨other,inside,rest⟩
        exact ⟨other,List.mem_cons_of_mem _ inside,rest⟩
      · rintro ⟨other,inside,again,both⟩
        rcases List.mem_cons.mp inside with rfl | more
        · exact absurd again named
        · exact ⟨other,more,again,both⟩

theorem matchLoop_calm (failed : matchLoop name value found argList = .error e) : e ≠ .panic := by
  induction argList generalizing found with
  | nil => cases failed
  | cons arg rest ih =>
    unfold matchLoop at failed
    split at failed
    · split at failed
      · cases failed
        exact nofun
      · exact ih failed
    · split at failed
      · split at failed
        · cases failed
          exact nofun
        · split at failed
          · cases failed
            exact nofun
          · exact ih failed
      · exact ih failed

theorem matchArgument_calm (failed : matchArgument argList name value = .error e) : e ≠ .panic := by
  unfold matchArgument at failed
  cases found : matchLoop name value none argList with
  | error other =>
    rw [found] at failed
    cases failed
    exact matchLoop_calm found
  | ok result =>
    rw [found] at failed
    cases result with
    | none =>
      cases failed
      exact nofun
    | some long => cases failed

end Rapido.Arguments

import Rapido.CutProgram

-- The assertion in kv_process of src/kv-conf, and what reads files with it.
namespace Rapido.KvConf
open Text

-- Whitespace is looked at outside of quotes only.
def CommentOutside (s : LineState) : Prop := s.commentNext = true → s.inquote = .no ∧ s.escapeNext = false

theorem plainBlock_commentOutside (uncommented : s.commentNext = false) (unescaped : s.escapeNext = false) (block : Str) :
    CommentOutside (plainBlock s block) := by
  have vacuous : ∀ t : LineState, t.commentNext = s.commentNext → CommentOutside t := by
    intro t same comment
    rw [same,uncommented] at comment
    cases comment
  unfold plainBlock
  split
  · exact vacuous _ rfl
  · split
    · split <;> exact vacuous _ rfl
    · split
      · split <;> exact vacuous _ rfl
      · split
        · rename_i space
          exact fun _ => ⟨space.2,unescaped⟩
        · split
          · exact vacuous _ rfl
          · split <;> exact vacuous _ rfl

theorem kvVarSub_calm (block : Str) (map : Map) : kvVarSub block map ≠ .error .panic := by
  unfold kvVarSub
  split
  · exact nofun
  · split
    · exact nofun
    · split
      · exact nofun
      · split
        · split <;> exact nofun
        · exact nofun

-- A step that does not panic, and leads on with whitespace looked at outside of quotes.
def CalmStep (outcome : Except KvError Flow) : Prop := outcome ≠ .error .panic ∧ ∀ t, outcome = .ok (.cont t) → CommentOutside t

theorem CalmStep.err (msg : String) : CalmStep (.error (.err msg)) := by
  refine ⟨?_,?_⟩
  · rintro ⟨⟩
  · rintro t ⟨⟩

theorem CalmStep.brk (t : LineState) : CalmStep (.ok (.brk t)) := by
  refine ⟨?_,?_⟩
  · rintro ⟨⟩
  · rintro t ⟨⟩

theorem CalmStep.cont (outside : CommentOutside t) : CalmStep (.ok (.cont t)) := by
  refine ⟨?_,?_⟩
  · rintro ⟨⟩
  · rintro t ⟨⟩
    exact outside

theorem blockStep_calm (outside : CommentOutside s) (map : Map) (block : Str) :
    CalmStep (blockStep map s block) := by
  unfold blockStep
  split
  · rename_i escaped
    have uncommented : s.commentNext = false := by
      by_contra comment
      have unescaped := (outside (Bool.eq_true_of_not_eq_false comment)).2
      rw [escaped] at unescaped
      cases unescaped
    unfold escapedBlock
    split
    · dsimp only
      split
      · exact .err _
      · refine .cont fun comment => ?_
        exact absurd comment (by rw [LineState.push]; simp [uncommented])
    · split
      · exact .brk _
      · exact .err _
  · rename_i unescaped
    split
    · rename_i comment
      unfold commentBlock
      rw [if_neg (not_not.mpr (outside comment).1)]
      split
      · exact .brk _
      · split
        · exact .cont outside
        · exact .err _
    · rename_i uncommented
      have none := Bool.eq_false_of_not_eq_true uncommented
      have plain := Bool.eq_false_of_not_eq_true unescaped
      split
      · split
        · rename_i e failed
          refine ⟨fun same => kvVarSub_calm block map ?_,fun t other => ?_⟩
          · rw [failed]
            cases same
            rfl
          · cases other
        · exact .cont (plainBlock_commentOutside (s:={s with varNext:=false}) none plain _)
      · exact .cont (plainBlock_commentOutside none plain _)

theorem blockLoop_calm (map : Map) (blocks : List Str) (outside : CommentOutside s) : blockLoop map s blocks ≠ .error .panic := by
  induction blocks generalizing s with
  | nil => rintro ⟨⟩
  | cons block rest ih =>
    obtain ⟨calm,stays⟩ := blockStep_calm outside map block
    unfold blockLoop
    cases stepped : blockStep map s block with
    | error e =>
      rw [stepped] at calm
      exact fun same => calm (by cases same; rfl)
    | ok flow =>
      cases flow with
      | brk t => rintro ⟨⟩
      | cont t => exact ih (stays t stepped)

-- The assertion of kv_process holds whatever it is given.
theorem kvProcess_calm (line : Str) (map : Map) : (kvProcess line map).1 ≠ .error .panic := by
  unfold kvProcess
  dsimp only
  split
  · exact nofun
  · split
    · exact nofun
    · split
      · exact nofun
      · split
        · exact nofun
        · split
          · rename_i e failed
            have outside : CommentOutside {} := nofun
            exact fun same => blockLoop_calm map _ outside (failed.trans (by cases same; rfl))
          · split <;> exact nofun

theorem kvReadLine_calm (failed : kvReadLine linenum rest buf = .error e) : e.kind ≠ .panic := by
  unfold kvReadLine at failed
  split at failed
  · split at failed
    · cases failed
      exact nofun
    · cases failed
  · split at failed
    · cases failed
      exact nofun
    · cases failed

end Rapido.KvConf

namespace Rapido.Cut
open Text KvConf

theorem appendByteLines_calm (failed : (appendByteLines linenum buffer map lines).1 = .error e) : e.kind ≠ .panic := by
  induction lines generalizing linenum buffer map with
  | nil =>
    unfold appendByteLines at failed
    split at failed
    · rename_i other read
      cases failed
      exact kvReadLine_calm read
    · cases failed
  | cons bytes rest ih =>
    unfold appendByteLines at failed
    split at failed
    · cases failed
      rintro ⟨⟩
    · split at failed
      · rename_i read
        cases failed
        exact kvReadLine_calm read
      · rename_i _ _ buf _
        have calm := kvProcess_calm buf map
        split at failed
        · rename_i fault _ processed
          rw [processed] at calm
          cases failed
          cases fault with
          | err msg => rintro ⟨⟩
          | panic => exact absurd rfl calm
        · exact ih failed
        · exact ih failed

theorem kvConfFileAppend_calm (failed : kvConfFileAppend bytes map = (.error e,after)) : e.kind ≠ .panic :=
  appendByteLines_calm (congrArg Prod.fst failed)

-- No rapido.conf, whatever its bytes, makes the host or the guest panic.
theorem kvConf_unpanicked (bytes : List UInt8) (map : Map) (msg : String) : (kvConfFileAppend bytes map).1 ≠ .error ⟨.panic,msg⟩ :=
  fun failed => appendByteLines_calm failed rfl

end Rapido.Cut

import Handout.Proofs.Exercise.Destination

/-!
# Files laid over what is stored

When files have been written below a place (`Session.Overlaid`), the files are stored there, directories have been made
where they were missing around the files, and everything else is what it was.  If more files are written, the later
content of a file counts (`Overlaid.trans`).  What is stored in the end depends on the written files alone
(`Overlaid.get?_eq`).
-/

namespace Handout.Session

open Handout.Action

variable {s t t' u : Session} {target known : Path} {d place x : Location} {names rel : List String} {data : Bytes}
  {W W' : List String → Bytes → Prop}

/-- Below a place files with these contents have been written, and nothing else has changed. -/
structure Overlaid (before after : Session) (place : Location) (W : List String → Bytes → Prop) : Prop where
  only : after = { before with files := after.files, log := after.log }
  sound : after.Sound
  written : ∀ rel data, W rel data →
    ∃ flag, Flagged (before.files.get? (place ++ rel)) flag ∧ after.files.get? (place ++ rel) = some (.file data flag)
  /-- Elsewhere, nothing has changed but that missing directories around written files have been made. -/
  others : ∀ x, (∀ rel data, W rel data → x ≠ place ++ rel) →
    after.files.get? x = before.files.get? x ∨
      before.files.get? x = none ∧ after.files.get? x = some .directory ∧
        ∃ rel data, W rel data ∧ x <+: place ++ rel.dropLast

theorem Overlaid.nothing (hs : s.Sound) (hno : ∀ rel data, ¬ W rel data) (log : List LogRecord) :
    Overlaid s { s with log := log } place W :=
  ⟨rfl, ⟨hs.files, hs.workingDir⟩, fun rel data hw => absurd hw (hno rel data), fun _ _ => .inl rfl⟩

theorem Overlaid.congr (h : Overlaid s t place W) (hsame : ∀ rel data, W rel data ↔ W' rel data) :
    Overlaid s t place W' := by
  have he : W = W' := funext fun rel => funext fun data => propext (hsame rel data)
  rwa [← he]

/-- A directory around a written file is there. -/
theorem Overlaid.directory (h : Overlaid s t place W) (hw : W rel data) (hrel : rel ≠ [])
    (hx : x <+: place ++ rel.dropLast) : t.files.get? x = some .directory := by
  obtain ⟨flag, -, hstored⟩ := h.written rel data hw
  obtain ⟨more, hmore⟩ := hx
  have hsplit : place ++ rel = x ++ (more ++ [rel.getLast hrel]) := by
    rw [← List.append_assoc, hmore, List.append_assoc, List.dropLast_concat_getLast]
  rw [hsplit] at hstored
  exact h.sound.files.ancestor (by rw [hstored]; exact Option.some_ne_none _) (by simp)

/-- Where there is a directory, no file has been written. -/
theorem Overlaid.not_written (h : Overlaid s t place W) (hdir : t.files.get? x = some .directory) :
    ∀ rel data, W rel data → x ≠ place ++ rel := by
  rintro rel data hw rfl
  obtain ⟨flag, -, hstored⟩ := h.written rel data hw
  cases hstored.symm.trans hdir

/-- A file keeps whether it is executable. -/
theorem Overlaid.flagged {flag : Bool} (h : Overlaid s t place W) (hflag : Flagged (t.files.get? x) flag) :
    Flagged (s.files.get? x) flag := by
  by_cases hw : ∃ rel data, W rel data ∧ x = place ++ rel
  · obtain ⟨rel, data, hw, rfl⟩ := hw
    obtain ⟨flag', hflag', hstored⟩ := h.written rel data hw
    rw [hstored] at hflag
    rcases hflag with ⟨hnone, -⟩ | ⟨old, hsame⟩
    · cases hnone
    · cases hsame
      exact hflag'
  · rcases h.others x fun rel data hwritten he => hw ⟨rel, data, hwritten, he⟩ with hsame | ⟨-, hmade, -⟩
    · rwa [hsame] at hflag
    · exact absurd hmade hflag.ne_directory

/-- If more files are written, what was written of them before does not count. -/
theorem Overlaid.trans (h : Overlaid s t place W) (h' : Overlaid t u place W') :
    Overlaid s u place fun rel data => W' rel data ∨ W rel data ∧ ∀ data', ¬ W' rel data' where
  only := h'.only.trans (congrArg (fun v : Session => { v with files := u.files, log := u.log }) h.only)
  sound := h'.sound
  written rel data hw := by
    rcases hw with hw | ⟨hw, hlast⟩
    · obtain ⟨flag, hflag, hstored⟩ := h'.written rel data hw
      exact ⟨flag, h.flagged hflag, hstored⟩
    · obtain ⟨flag, hflag, hstored⟩ := h.written rel data hw
      refine ⟨flag, hflag, ?_⟩
      have hfree : ∀ rel' data', W' rel' data' → place ++ rel ≠ place ++ rel' := by
        intro rel' data' hw' he
        obtain rfl := List.append_cancel_left he
        exact hlast data' hw'
      rcases h'.others (place ++ rel) hfree with hsame | ⟨hnone, -⟩
      · rw [hsame, hstored]
      · rw [hstored] at hnone
        cases hnone
  others x hx := by
    have hfree' : ∀ rel data, W' rel data → x ≠ place ++ rel := fun rel data hw => hx rel data (.inl hw)
    -- a file that is written again is still written, so nothing is left out by the composition
    have hfree : ∀ rel data, W rel data → x ≠ place ++ rel := by
      intro rel data hw
      by_cases hw' : ∃ data', W' rel data'
      · obtain ⟨data', hw'⟩ := hw'
        exact hfree' rel data' hw'
      · exact hx rel data (.inr ⟨hw, not_exists.1 hw'⟩)
    have haround : ∀ rel data, W rel data → ∃ data', W' rel data' ∨ W rel data' ∧ ∀ data'', ¬ W' rel data'' := by
      intro rel data hw
      by_cases hw' : ∃ data', W' rel data'
      · exact hw'.imp fun _ => .inl
      · exact ⟨data, .inr ⟨hw, not_exists.1 hw'⟩⟩
    rcases h.others x hfree with hsame | ⟨hnone, hmade, rel, data, hw, hp⟩
    · refine (h'.others x hfree').imp (fun hsame' => hsame'.trans hsame) ?_
      rintro ⟨hnone, hmade, rel, data, hw, hp⟩
      exact ⟨hsame.symm.trans hnone, hmade, rel, data, .inl hw, hp⟩
    · obtain ⟨data', hw'⟩ := haround rel data hw
      refine .inr ⟨hnone, ?_, rel, data', hw', hp⟩
      rcases h'.others x hfree' with hsame | ⟨hnone', -⟩
      · rw [hsame, hmade]
      · rw [hmade] at hnone'
        cases hnone'

/-- What is stored depends on the written files alone. -/
theorem Overlaid.get?_eq (h : Overlaid s t place W) (h' : Overlaid s t' place W)
    (hrel : ∀ rel data, W rel data → rel ≠ []) (x : Location) : t'.files.get? x = t.files.get? x := by
  by_cases hw : ∃ rel data, W rel data ∧ x = place ++ rel
  · obtain ⟨rel, data, hw, rfl⟩ := hw
    obtain ⟨flag, hflag, hstored⟩ := h.written rel data hw
    obtain ⟨flag', hflag', hstored'⟩ := h'.written rel data hw
    rw [hstored, hstored', hflag.unique hflag']
  have hfree : ∀ rel data, W rel data → x ≠ place ++ rel := fun rel data hwritten he => hw ⟨rel, data, hwritten, he⟩
  -- a directory that one of the runs has made is around a written file, and so it is there after the other run, too
  rcases h.others x hfree with hsame | ⟨-, hmade, rel, data, hw, hp⟩
  · rcases h'.others x hfree with hsame' | ⟨-, hmade', rel, data, hw, hp⟩
    · rw [hsame, hsame']
    · rw [hmade', h.directory hw (hrel rel data hw) hp]
  · rw [hmade, h'.directory hw (hrel rel data hw) hp]

/-! ### When some of the files are written -/

section Some

variable (h : Overlaid s t place W) (h' : Overlaid s u place W') (hsome : ∀ rel data, W' rel data → ∃ data', W rel data')

include h h' hsome

/-- Where a directory comes to be there is nothing but a directory before. -/
theorem Overlaid.directory_of_some (hdir : t.files.get? x = some .directory) :
    u.files.get? x = none ∨ u.files.get? x = some .directory := by
  have hfree' : ∀ rel data, W' rel data → x ≠ place ++ rel := by
    intro rel data hw
    obtain ⟨data', hw⟩ := hsome rel data hw
    exact h.not_written hdir rel data' hw
  rcases h'.others x hfree' with hsame | ⟨-, hmade, -⟩
  · rw [hsame]
    rcases h.others x (h.not_written hdir) with hold | ⟨hnone, -⟩
    · exact .inr (hold.symm.trans hdir)
    · exact .inl hnone
  · exact .inr hmade

/-- Where a file comes to be written there is nothing but a file before. -/
theorem Overlaid.flagged_of_some (hrel : ∀ rel data, W rel data → rel ≠ []) (hw : W rel data) :
    ∃ flag, Flagged (u.files.get? (place ++ rel)) flag := by
  by_cases hw' : ∃ data', W' rel data'
  · obtain ⟨data', hw'⟩ := hw'
    obtain ⟨flag, -, hstored⟩ := h'.written rel data' hw'
    exact ⟨flag, .inr ⟨data', hstored⟩⟩
  have hfree : ∀ rel' data', W' rel' data' → place ++ rel ≠ place ++ rel' := by
    intro rel' data' hwritten he
    obtain rfl := List.append_cancel_left he
    exact hw' ⟨data', hwritten⟩
  obtain ⟨flag, hflag, hstored⟩ := h.written rel data hw
  rcases h'.others (place ++ rel) hfree with hsame | ⟨-, -, rel', data', hwritten, hp⟩
  · exact ⟨flag, hsame ▸ hflag⟩
  · -- a directory in its place would be there in the end
    obtain ⟨data', hwritten⟩ := hsome rel' data' hwritten
    cases hstored.symm.trans (h.directory hwritten (hrel rel' data' hwritten) hp)

end Some

/-! ### Where files are to be put -/

/-- Writing files where files are to be put disturbs nothing else. -/
theorem Overlaid.grown (h : Overlaid s t (d ++ names) W) (hs : s.Sound) (hq : Destination s target known d names) :
    Grown s t (d ++ names.take 1) := by
  have htop : ∀ rel, d ++ names.take 1 <+: d ++ names ++ rel := fun rel =>
    ((List.prefix_append_right_inj d).2 (List.take_prefix 1 names)).trans (List.prefix_append _ _)
  refine Grown.of_cases h.only h.sound hq.noLink fun x => ?_
  by_cases hw : ∃ rel data, W rel data ∧ x = d ++ names ++ rel
  · obtain ⟨rel, data, hw, rfl⟩ := hw
    obtain ⟨flag, hflag, hstored⟩ := h.written rel data hw
    refine .inr ⟨htop rel, ?_, fun target => by rw [hstored]; exact nofun⟩
    exact hflag.imp (fun hold => hold.1) fun ⟨old, hold⟩ => ⟨old, flag, hold⟩
  · rcases h.others x fun rel data hwrites he => hw ⟨rel, data, hwrites, he⟩ with hsame | ⟨hnone, hdir, rel, data, -, hp⟩
    · exact .inl hsame
    · rcases hq.within hs (List.prefix_append _ _) hp with hin | hout
      · exact .inr ⟨hin, .inl hnone, fun target => by rw [hdir]; exact nofun⟩
      · rw [hnone] at hout
        cases hout

end Handout.Session

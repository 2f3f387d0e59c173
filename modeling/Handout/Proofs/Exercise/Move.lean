import Handout.Exercise.Move
import Handout.Proofs.Exercise.Mirror
import Handout.Proofs.Files.Draft
import Handout.Proofs.Files.Listable
import Handout.Proofs.Project.Table

/-!
# What becomes of files that are moved

However a run ends, each student file of a project is either still in its place or has gone to the same place under
the target, and nothing else has changed but that directories have been made (`moveFiles_conserves`).  The invariant is
`Moved`, which says of every location what is stored there when some of the paths are done.  A step moves one file
(`Moved.put`).  The walk classifies a file when others have gone already, with a configuration that is loaded for the
first regular file; this makes no difference, since a classification only asks whether the file itself is there
(`moveFile_ensures`).
-/

namespace Handout.Exercise

open Handout.Action Session

variable {policy : Policy} {before after s t u : Session} {source target known : Path} {e d place x : Location}
  {names rel rel' init : List String} {c : String} {done : List Location} {config : Config}

/-- Some names lead from a project to a regular file that a policy takes for a student file. -/
def IsStudentFile (policy : Policy) (s : Session) (source : Path) (e : Location) (rel : List String) : Prop :=
  isFileNode (s.files.get? (e ++ rel)) = true ∧
    ((policy.isStudentFile (source.append rel) source none).perform s).1 = .ok true

instance (policy : Policy) (s : Session) (source : Path) (e : Location) (rel : List String) :
    Decidable (IsStudentFile policy s source e rel) := inferInstanceAs (Decidable (_ ∧ _))

/-- A file is still in its place, and in the place to which it would go nothing has changed. -/
def Stays (before after : Session) (e place : Location) (rel : List String) : Prop :=
  after.files.get? (e ++ rel) = before.files.get? (e ++ rel) ∧
    after.files.get? (place ++ rel) = before.files.get? (place ++ rel)

/-- A file has gone from its place to the same place elsewhere. -/
def Goes (before after : Session) (e place : Location) (rel : List String) : Prop :=
  after.files.get? (e ++ rel) = none ∧ after.files.get? (place ++ rel) = before.files.get? (e ++ rel)

instance (before after : Session) (e place : Location) (rel : List String) : Decidable (Stays before after e place rel) :=
  inferInstanceAs (Decidable (_ ∧ _))

instance (before after : Session) (e place : Location) (rel : List String) : Decidable (Goes before after e place rel) :=
  inferInstanceAs (Decidable (_ ∧ _))

/-- A project without links and a place apart from it to which its student files can go: none of them would take the
place of a directory. -/
structure Transfer (s : Session) (policy : Policy) (source target known : Path) (e d : Location) (names : List String) :
    Prop where
  straight : s.Straight source e
  destination : Destination s target known d names
  /-- Where the target begins to be its own, it is not in the project. -/
  outside : ¬ e <+: d ++ names.take 1
  /-- Where the target begins to be its own, the project is not in it. -/
  around : ¬ d ++ names.take 1 <+: e
  kind : ∃ g, policy.kind = .ecosystem g
  /-- A configuration that the policy has loaded before is one that can be loaded. -/
  inside : ∀ config, s.loaded.lookup policy.number = some config → config.Inside
  free : ∀ rel, IsStudentFile policy s source e rel → s.files.get? (d ++ names ++ rel) ≠ some .directory

/-! ### Student files and their places -/

theorem IsStudentFile.file (h : IsStudentFile policy s source e rel) :
    ∃ data executable, s.files.get? (e ++ rel) = some (.file data executable) := by
  have hnode := h.1
  unfold isFileNode at hnode
  split at hnode
  · rename_i data executable hfile
    exact ⟨data, executable, hfile⟩
  · cases hnode

theorem IsStudentFile.exists (h : IsStudentFile policy s source e rel) : s.files.get? (e ++ rel) ≠ none := by
  obtain ⟨data, executable, hfile⟩ := h.file
  rw [hfile]
  exact Option.some_ne_none _

theorem IsStudentFile.ne_directory (h : IsStudentFile policy s source e rel) :
    s.files.get? (e ++ rel) ≠ some .directory := by
  obtain ⟨data, executable, hfile⟩ := h.file
  rw [hfile]
  exact nofun

/-- Nothing lies below a student file. -/
theorem IsStudentFile.eq_of_below (h : IsStudentFile policy s source e rel) (hs : s.Sound)
    (hn : s.files.get? (e ++ rel') ≠ none) (hp : rel <+: rel') : rel' = rel := by
  obtain ⟨rest, rfl⟩ := hp
  by_contra hne
  rw [← List.append_assoc] at hn
  exact h.ne_directory (hs.files.ancestor hn fun hrest => hne (by rw [hrest, List.append_nil]))

/-- A student file does not lie around the directory of one. -/
theorem IsStudentFile.not_around (h : IsStudentFile policy s source e rel) (hs : s.Sound)
    (h' : IsStudentFile policy s source e rel') (hne : rel' ≠ []) : ¬ rel <+: rel'.dropLast := by
  intro hp
  obtain rfl := h.eq_of_below hs h'.exists (hp.trans (List.dropLast_prefix rel'))
  exact not_prefix_dropLast hne hp

namespace Transfer

variable (h : Transfer before policy source target known e d names)
include h

theorem ne_nil (hrel : IsStudentFile policy before source e rel) : rel ≠ [] := by
  rintro rfl
  refine hrel.ne_directory ?_
  rw [List.append_nil]
  exact h.straight.directory

omit h in
/-- Where files are to go, and the location from which on there are no links. -/
private theorem apart_of_place (d : Location) (names rel : List String) : d ++ names.take 1 <+: d ++ names ++ rel :=
  ((List.prefix_append_right_inj d).2 (List.take_prefix 1 names)).trans (List.prefix_append _ _)

/-- What is in the project is not in the target, nor on the way to it. -/
theorem apart (rel rel' : List String) : ¬ e ++ rel <+: d ++ names ++ rel' := by
  intro hp
  rcases List.prefix_or_prefix_of_prefix ((List.prefix_append e rel).trans hp) (apart_of_place d names rel') with hin | hin
  · exact h.outside hin
  · exact h.around hin

theorem ne (rel rel' : List String) : e ++ rel ≠ d ++ names ++ rel' := fun he =>
  h.apart rel rel' (he ▸ List.prefix_refl _)

theorem noLink (rel : List String) (text : String) : before.files.get? (d ++ names ++ rel) ≠ some (.link text) := by
  obtain ⟨rest, hrest⟩ := apart_of_place d names rel
  rw [← hrest]
  exact h.destination.noLink rest text

theorem named (hn : before.files.get? (e ++ rel) ≠ none) : ∀ x ∈ names ++ rel, IsName x := by
  intro x hx
  rcases List.mem_append.1 hx with hx | hx
  · exact h.destination.named x hx
  · exact (h.straight.sound.files.proper_of_mem hn hx).toIsName

/-- Names behind the target lead on from where it is known. -/
theorem target_append (rel : List String) : target.append rel = known.append (names ++ rel) := by
  rw [h.destination.path, Path.append_append]

/-- The configuration of the policy is one that can be loaded. -/
theorem inside_of_config (hconfig : (policy.config.perform before).1 = .ok config) : config.Inside := by
  cases hl : before.loaded.lookup policy.number with
  | some config' =>
    rw [Policy.perform_config_of_loaded hl] at hconfig
    cases hconfig
    exact h.inside config hl
  | none =>
    rw [Policy.perform_config_of_new hl] at hconfig
    split at hconfig
    · rename_i config' hload
      cases hconfig
      exact Config.inside_of_load hload
    · cases hconfig

end Transfer

/-! ### The invariant -/

/-- A student file is among the locations that are done. -/
def IsDone (policy : Policy) (before : Session) (source : Path) (e : Location) (done : List Location)
    (rel : List String) : Prop := IsStudentFile policy before source e rel ∧ e ++ rel ∈ done

private theorem IsDone.of_concat (h : IsDone policy before source e (done ++ [e ++ rel]) rel') :
    IsDone policy before source e done rel' ∨ rel' = rel := by
  rcases List.mem_append.1 h.2 with hdone | hnew
  · exact .inl ⟨h.1, hdone⟩
  · exact .inr (List.append_cancel_left (List.mem_singleton.1 hnew))

private theorem IsDone.concat (h : IsDone policy before source e done rel') (x : Location) :
    IsDone policy before source e (done ++ [x]) rel' := ⟨h.1, List.mem_append_left _ h.2⟩

/-- Of the locations that are done the student files have gone, and nothing else has changed but that directories have
been made for student files. -/
structure Moved (policy : Policy) (before after : Session) (source : Path) (e place : Location) (done : List Location) :
    Prop where
  workingDir : after.workingDir = before.workingDir
  sound : after.Sound
  goes : ∀ rel, IsDone policy before source e done rel → Goes before after e place rel
  others : ∀ x, (∀ rel, IsDone policy before source e done rel → x ≠ e ++ rel ∧ x ≠ place ++ rel) →
    after.files.get? x = before.files.get? x ∨ before.files.get? x = none ∧ after.files.get? x = some .directory ∧
      ∃ rel, IsStudentFile policy before source e rel ∧ x <+: place ++ rel.dropLast

theorem Moved.start (hs : before.Sound) : Moved policy before before source e place [] where
  workingDir := rfl
  sound := hs
  goes _ hrel := absurd hrel.2 List.not_mem_nil
  others _ _ := .inl rfl

theorem Moved.withLoaded (h : Moved policy before s source e place done) (loaded : List (Nat × Config)) :
    Moved policy before { s with loaded } source e place done :=
  ⟨h.workingDir, ⟨h.sound.files, h.sound.workingDir⟩, h.goes, h.others⟩

namespace Moved

/-- What is stored at a location. -/
theorem cases (h : Moved policy before after source e place done) (x : Location) :
    (∃ rel, IsDone policy before source e done rel ∧ x = e ++ rel ∧ after.files.get? x = none) ∨
      (∃ rel, IsDone policy before source e done rel ∧ x = place ++ rel ∧
        after.files.get? x = before.files.get? (e ++ rel)) ∨
      after.files.get? x = before.files.get? x ∨
        before.files.get? x = none ∧ after.files.get? x = some .directory := by
  by_cases hdone : ∃ rel, IsDone policy before source e done rel ∧ (x = e ++ rel ∨ x = place ++ rel)
  · obtain ⟨rel, hrel, rfl | rfl⟩ := hdone
    · exact .inl ⟨rel, hrel, rfl, (h.goes rel hrel).1⟩
    · exact .inr (.inl ⟨rel, hrel, rfl, (h.goes rel hrel).2⟩)
  · refine .inr (.inr ((h.others x fun rel hrel => ?_).imp_right fun hmade => ⟨hmade.1, hmade.2.1⟩))
    exact ⟨fun he => hdone ⟨rel, hrel, .inl he⟩, fun he => hdone ⟨rel, hrel, .inr he⟩⟩

variable (hm : Moved policy before s source e (d ++ names) done) (h : Transfer before policy source target known e d names)
include hm h

/-- Directories are still there. -/
theorem directory (hx : before.files.get? x = some .directory) : s.files.get? x = some .directory := by
  rcases hm.cases x with ⟨rel, hrel, rfl, -⟩ | ⟨rel, hrel, rfl, -⟩ | hsame | ⟨-, hmade⟩
  · exact absurd hx hrel.1.ne_directory
  · exact absurd hx (h.free rel hrel.1)
  · rw [hsame, hx]
  · exact hmade

/-- Links are still there. -/
theorem link {text : String} (hx : before.files.get? x = some (.link text)) : s.files.get? x = some (.link text) := by
  rcases hm.cases x with ⟨rel, hrel, rfl, -⟩ | ⟨rel, hrel, rfl, -⟩ | hsame | ⟨hnone, -⟩
  · exact absurd hx (h.straight.noLink rel text)
  · exact absurd hx (h.noLink rel text)
  · rw [hsame, hx]
  · rw [hnone] at hx
    cases hx

theorem ne_link {text : String} (hx : before.files.get? x ≠ some (.link text)) : s.files.get? x ≠ some (.link text) := by
  rcases hm.cases x with ⟨rel, -, -, hnone⟩ | ⟨rel, hrel, -, hgone⟩ | hsame | ⟨-, hmade⟩
  · rw [hnone]
    exact nofun
  · rw [hgone]
    exact h.straight.noLink rel text
  · rwa [hsame]
  · rw [hmade]
    exact nofun

/-- The project is as it was, but for the files that have gone. -/
theorem source_eq (hrel : ¬ IsDone policy before source e done rel) :
    s.files.get? (e ++ rel) = before.files.get? (e ++ rel) := by
  refine (hm.others _ fun rel' hdone => ⟨fun he => ?_, h.ne rel rel'⟩).resolve_right ?_
  · rw [List.append_cancel_left he] at hrel
    exact hrel hdone
  · rintro ⟨-, -, rel', -, hp⟩
    exact h.apart rel rel'.dropLast hp

/-- The places of files that are not done are as they were. -/
theorem place_eq (hrel : IsStudentFile policy before source e rel) (hdone : ¬ IsDone policy before source e done rel) :
    s.files.get? (d ++ names ++ rel) = before.files.get? (d ++ names ++ rel) := by
  refine (hm.others _ fun rel' hdone' => ⟨fun he => h.ne rel' rel he.symm, fun he => ?_⟩).resolve_right ?_
  · rw [List.append_cancel_left he] at hdone
    exact hdone hdone'
  · rintro ⟨-, -, rel', hrel', hp⟩
    exact hrel.not_around h.straight.sound hrel' (h.ne_nil hrel') ((List.prefix_append_right_inj _).1 hp)

theorem straight : s.Straight source e where
  sound := hm.sound
  reaches := by
    have hdir := hm.directory h h.straight.directory
    refine h.straight.reaches.keep hm.workingDir (fun x hx => hm.directory h hx) (fun x text hx => hm.link h hx) ?_ ?_
    · rw [hdir, h.straight.directory]
    · rw [h.straight.directory]
      exact Option.some_ne_none _
  directory := hm.directory h h.straight.directory
  noLink rel text := hm.ne_link h (h.straight.noLink rel text)

theorem way (rel : List String) : Way s known d (names ++ rel) := by
  refine ⟨hm.sound, h.destination.leads.mono hm.workingDir (fun x hx => hm.directory h hx) fun x text hx => hm.link h hx,
    fun first text hne hfirst => hm.ne_link h ?_⟩
  cases names with
  | nil => simpa using h.destination.noLink first text
  | cons name rest =>
    obtain ⟨c, first, rfl⟩ := List.exists_cons_of_ne_nil hne
    obtain ⟨rfl, -⟩ := List.cons_prefix_cons.1 hfirst
    simpa using h.destination.noLink first text

end Moved

/-! ### A file more -/

section Step

variable (hm : Moved policy before s source e (d ++ names) done) (h : Transfer before policy source target known e d names)
include hm h

omit h in
/-- What is no student file is done without any change. -/
theorem Moved.skip (hrel : ¬ IsStudentFile policy before source e rel) :
    Moved policy before s source e (d ++ names) (done ++ [e ++ rel]) := by
  refine ⟨hm.workingDir, hm.sound, fun rel' hdone => ?_, fun x hx => hm.others x fun rel' hdone => hx rel' (hdone.concat _)⟩
  rcases hdone.of_concat with hdone' | rfl
  · exact hm.goes rel' hdone'
  · exact absurd hdone.1 hrel

/-- Directories are made for a student file. -/
theorem Moved.opened (hrel : IsStudentFile policy before source e (init ++ [c])) (ho : Opened s u (d ++ names ++ init)) :
    Moved policy before u source e (d ++ names) done := by
  refine ⟨?_, ho.sound, fun rel hdone => ⟨?_, ?_⟩, fun x hx => ?_⟩
  · rw [ho.only, hm.workingDir]
  · rw [ho.eq_of_not_prefix (h.apart rel init), (hm.goes rel hdone).1]
  · rw [ho.eq_of_ne_none, (hm.goes rel hdone).2]
    rw [(hm.goes rel hdone).2]
    exact hdone.1.exists
  · rcases hm.others x hx with hsame | ⟨hnone, hmade, hway⟩
    · rcases ho.stored x with hsame' | ⟨hnone, hmade, hp⟩
      · exact .inl (hsame'.trans hsame)
      · refine .inr ⟨hsame ▸ hnone, hmade, init ++ [c], hrel, ?_⟩
        rwa [List.dropLast_concat]
    · refine .inr ⟨hnone, ?_, hway⟩
      rw [ho.eq_of_ne_none (by rw [hmade]; exact Option.some_ne_none _), hmade]

/-- A student file is done by taking it from its place and storing it in the directory that has been made for it. -/
theorem Moved.put {node : Node} (hrel : IsStudentFile policy before source e (init ++ [c]))
    (hnew : e ++ (init ++ [c]) ∉ done) (hdir : s.files.get? (d ++ names ++ init) = some .directory)
    (hnode : s.files.get? (e ++ (init ++ [c])) = some node) :
    Moved policy before
      { s with files := (s.files.erase (e ++ (init ++ [c]))).put (d ++ names ++ (init ++ [c])) node } source e
      (d ++ names) (done ++ [e ++ (init ++ [c])]) := by
  have hdone : ¬ IsDone policy before source e done (init ++ [c]) := fun hdone => hnew hdone.2
  have hold : s.files.get? (e ++ (init ++ [c])) = before.files.get? (e ++ (init ++ [c])) := hm.source_eq h hdone
  have hfree : s.files.get? (d ++ names ++ (init ++ [c])) ≠ some .directory := by
    rw [hm.place_eq h hrel hdone]
    exact h.free _ hrel
  have hfile : s.files.get? (e ++ (init ++ [c])) ≠ some .directory := by
    rw [hold]
    exact hrel.ne_directory
  have hne : e ++ (init ++ [c]) ≠ [] := by simp
  have hne' : d ++ names ++ (init ++ [c]) ≠ [] := by simp
  have hproper : IsProper c := h.straight.sound.files.proper_of_mem hrel.exists (by simp)
  -- what is stored at a location afterwards
  have hget : ∀ x, ((s.files.erase (e ++ (init ++ [c]))).put (d ++ names ++ (init ++ [c])) node).get? x =
      if x = d ++ names ++ (init ++ [c]) then some node else if x = e ++ (init ++ [c]) then none else s.files.get? x := by
    intro x
    rw [Files.get?_put hne', Files.get?_erase hne]
  refine ⟨?_, ?_, fun rel hrel' => ⟨?_, ?_⟩, fun x hx => ?_⟩
  · exact hm.workingDir
  · have herased := hm.sound.erase hfile
    have hplace : d ++ names ++ (init ++ [c]) = d ++ names ++ init ++ [c] := (List.append_assoc ..).symm
    rw [hplace] at hfree ⊢
    refine herased.put ?_ hproper fun hd => ?_
    · dsimp only
      rw [Files.get?_erase hne, if_neg fun he => h.ne _ _ he.symm, hdir]
    · dsimp only at hd
      rw [Files.get?_erase hne] at hd
      split at hd
      · cases hd
      · exact absurd hd hfree
  · dsimp only
    rw [hget, if_neg (h.ne _ _)]
    rcases hrel'.of_concat with hdone' | rfl
    · rw [(hm.goes rel hdone').1, ite_self]
    · rw [if_pos rfl]
  · dsimp only
    rw [hget]
    rcases hrel'.of_concat with hdone' | rfl
    · have hother : d ++ names ++ rel ≠ d ++ names ++ (init ++ [c]) := fun he =>
        hdone (List.append_cancel_left he ▸ hdone')
      rw [if_neg hother, if_neg fun he => h.ne _ _ he.symm, (hm.goes rel hdone').2]
    · rw [if_pos rfl, ← hold, hnode]
  · have hself := hx (init ++ [c]) ⟨hrel, List.mem_append_right _ (List.mem_singleton_self _)⟩
    dsimp only
    rw [hget, if_neg hself.2, if_neg hself.1]
    exact hm.others x fun rel hrel' => hx rel (hrel'.concat _)

end Step

/-! ### Moving one file -/

section OneFile

variable (h : Transfer before policy source target known e d names)
include h

/-- The directory of a student file is made, or something of it. -/
private theorem makeParent_moved (hrel : IsStudentFile policy before source e (init ++ [c])) :
    Ensures (fun t => Moved policy before t source e (d ++ names) done ∧ t.loaded.lookup policy.number = some config)
      (makeParent (target.append (init ++ [c])))
      (fun _ t => Moved policy before t source e (d ++ names) done ∧ t.loaded.lookup policy.number = some config ∧
        t.files.get? (d ++ names ++ init) = some .directory)
      fun _ t => Moved policy before t source e (d ++ names) done := by
  have hparent : (target.append (init ++ [c])).parent = known.append (names ++ init) := by
    rw [Path.parent_append_concat, h.target_append]
  have hnamed : ∀ x ∈ names ++ init, IsName x := by
    intro x hx
    refine h.named hrel.exists x ?_
    rw [← List.append_assoc]
    exact List.mem_append_left _ hx
  refine Ensures.of_each fun s hs => ?_
  have hopens := makeDirectories_opens (hs.1.way h init) hnamed
  rw [← List.append_assoc] at hopens
  unfold makeParent
  rw [hparent]
  refine Ensures.during (hopens.mono (fun _ ht => ht) (fun _ u hu => ⟨hs.1.opened h hrel hu.1, ?_, hu.2⟩)
    fun _ u hu => hs.1.opened h hrel hu.1) _ _
  rw [hu.1.only]
  exact hs.2

/-- A student file is moved into the directory that has been made for it, or it stays. -/
private theorem move_moved (hrel : IsStudentFile policy before source e (init ++ [c]))
    (hnew : e ++ (init ++ [c]) ∉ done) :
    Ensures (fun t => Moved policy before t source e (d ++ names) done ∧ t.loaded.lookup policy.number = some config ∧
        t.files.get? (d ++ names ++ init) = some .directory)
      (Action.move (source.append (init ++ [c])) (target.append (init ++ [c])))
      (fun _ t => Moved policy before t source e (d ++ names) (done ++ [e ++ (init ++ [c])]) ∧
        t.loaded.lookup policy.number = some config)
      fun _ t => Moved policy before t source e (d ++ names) done := by
  refine Ensures.of_each fun s hs => ?_
  obtain ⟨hm, hloaded, hdir⟩ := hs
  have hdone : ¬ IsDone policy before source e done (init ++ [c]) := fun hdone => hnew hdone.2
  have hnamed := h.named hrel.exists
  have hway := hm.way h (init ++ [c])
  have htarget := h.target_append (init ++ [c])
  have hplace : isDirectoryNode (s.node? true (target.append (init ++ [c]))) = false := by
    by_contra hd
    have hdir := hway.node hnamed (htarget ▸ Bool.not_eq_false _ ▸ hd)
    rw [← List.append_assoc, hm.place_eq h hrel hdone] at hdir
    exact h.free _ hrel hdir
  have hexists : s.files.get? (e ++ (init ++ [c])) ≠ none := by
    rw [hm.source_eq h hdone]
    exact hrel.exists
  unfold Action.move
  dsimp only
  split
  · exact Ensures.throw_bind fun t ht => ht ▸ hm
  refine Ensures.get_bind_of_eq ?_
  rw [if_neg (by rw [hplace]; exact Bool.false_ne_true)]
  rintro s rfl
  rcases hrun : (rename (source.append (init ++ [c])).written (target.append (init ++ [c])).written).perform s with ⟨r, t⟩
  cases r with
  | error f =>
    rw [error_of_rename hrun]
    exact hm
  | ok _ =>
    obtain ⟨old, node, place, hsource, hfind, -, hresult⟩ := ok_of_rename hrun
    have hold := Except.ok.inj (hsource.symm.trans (((hm.straight h).reaches_append hexists).find false))
    have hloc : place.location = d ++ names ++ (init ++ [c]) := by
      have hfind : s.find false (known.append (names ++ (init ++ [c]))) = .ok place := htarget ▸ hfind
      have hplain := plain_of_isName hnamed
      rcases find_append false hway.leads hway.sound hplain hway.clear (.inl (by simp)) with hf | ⟨_, hf, -⟩
      · rw [Except.ok.inj (hfind.symm.trans hf), List.append_assoc]
      · cases hfind.symm.trans hf
    obtain ⟨rfl, hnode⟩ := Place.mk.inj hold
    rw [hloc] at hresult
    rcases hresult with ⟨-, hsame⟩ | rfl
    · exact absurd hsame (h.ne _ _)
    · exact ⟨hm.put h hrel hnew hdir hnode.symm, hloaded⟩

/-- A path of the project that has not been done is classified as it would have been at first. -/
private theorem isStudentFile_moved (hconfig : (policy.config.perform before).1 = .ok config)
    (hn : before.files.get? (e ++ rel) ≠ none) (hnew : e ++ rel ∉ done) :
    Ensures (fun t => Moved policy before t source e (d ++ names) done ∧ (policy.config.perform t).1 = .ok config)
      (policy.isStudentFile (source.append rel) source none)
      (fun b t => (Moved policy before t source e (d ++ names) done ∧ t.loaded.lookup policy.number = some config) ∧
        ((policy.isStudentFile (source.append rel) source none).perform before).1 = .ok b)
      fun _ t => Moved policy before t source e (d ++ names) done := by
  rintro s ⟨hm, hs⟩
  obtain ⟨g, hkind⟩ := h.kind
  have hsame : s.files.get? (e ++ rel) = before.files.get? (e ++ rel) := hm.source_eq h fun hdone => hnew hdone.2
  have hstraight := hm.straight h
  have hagrees := Policy.isStudentFile_agrees hkind ⟨h.straight.sound, h.straight.leads, h.straight.noLink⟩
    ⟨hstraight.sound, hstraight.leads, hstraight.noLink⟩ hconfig hs (h.inside_of_config hconfig)
    (fun x hx => (h.straight.sound.files.proper_of_mem hn hx).plain) hn (hsame ▸ hn)
  obtain ⟨loaded, r, hlookup, hrun⟩ := Policy.perform_isStudentFile hkind hs (source.append rel) source
  rw [hrun] at hagrees ⊢
  cases r with
  | error f => exact hm.withLoaded loaded
  | ok b => exact ⟨⟨hm.withLoaded loaded, hlookup⟩, hagrees⟩

/-- Whether a path of the project that has not been done leads to a file is as it was at first. -/
private theorem isFile_moved (hn : before.files.get? (e ++ rel) ≠ none) (hnew : e ++ rel ∉ done) :
    Ensures (fun t => Moved policy before t source e (d ++ names) done ∧ (policy.config.perform t).1 = .ok config)
      (Action.isFile (source.append rel))
      (fun b t => (Moved policy before t source e (d ++ names) done ∧ (policy.config.perform t).1 = .ok config) ∧
        b = isFileNode (before.files.get? (e ++ rel)))
      fun _ t => Moved policy before t source e (d ++ names) done := by
  refine Ensures.query fun s hs => ?_
  have hsame : s.files.get? (e ++ rel) = before.files.get? (e ++ rel) := hs.1.source_eq h fun hdone => hnew hdone.2
  unfold Session.isFile?
  split
  · exact hs.1
  · rw [((hs.1.straight h).reaches_append (hsame ▸ hn)).look, hsame]
    exact ⟨hs, rfl⟩

/-- In its turn, a path is done by moving what it leads to, if this is a student file.  When it cannot be moved, it
stays. -/
theorem moveFile_ensures (hconfig : (policy.config.perform before).1 = .ok config)
    (hn : before.files.get? (e ++ rel) ≠ none) (hnew : e ++ rel ∉ done) :
    Ensures (fun t => Moved policy before t source e (d ++ names) done ∧ (policy.config.perform t).1 = .ok config)
      (moveFile policy source target (source.append rel))
      (fun _ t => Moved policy before t source e (d ++ names) (done ++ [e ++ rel]) ∧
        (policy.config.perform t).1 = .ok config)
      fun _ t => Moved policy before t source e (d ++ names) done := by
  have hkept : ∀ {t}, t.loaded.lookup policy.number = some config → (policy.config.perform t).1 = .ok config :=
    fun hlookup => by rw [Policy.perform_config_of_loaded hlookup]
  unfold moveFile
  refine (isFile_moved h hn hnew).bind fun b => Ensures.of_and fun hb => ?_
  subst hb
  split
  · rename_i hno
    have hrel : ¬ IsStudentFile policy before source e rel := fun hrel => by
      rw [hrel.1] at hno
      cases hno
    exact Ensures.pure fun t ht => ⟨ht.1.skip hrel, ht.2⟩
  rename_i hyes
  refine (isStudentFile_moved h hconfig hn hnew).bind fun b => Ensures.of_and fun hb => ?_
  cases b with
  | false =>
    have hrel : ¬ IsStudentFile policy before source e rel := fun hrel => by
      have hstudent := hrel.2
      rw [hb] at hstudent
      cases hstudent
    exact Ensures.pure fun t ht => ⟨ht.1.skip hrel, hkept ht.2⟩
  | true =>
    have hrel : IsStudentFile policy before source e rel := ⟨by simpa using hyes, hb⟩
    obtain ⟨init, c, rfl⟩ := (List.eq_nil_or_concat' rel).resolve_left (h.ne_nil hrel)
    rw [mirrored_append]
    refine (makeParent_moved h hrel).bind fun _ => Ensures.during ?_ _ _
    exact (move_moved h hrel hnew).mono (fun _ ht => ht) (fun _ _ ht => ⟨ht.1, hkept ht.2⟩) fun _ _ ht => ht

end OneFile

/-! ### Moving all files -/

section Run

variable (h : Transfer before policy source target known e d names)
include h

/-- What has gone is found no more, and everything else in the project is found as at first. -/
private theorem looks_moved (hm : Moved policy before s source e (d ++ names) done)
    (hn : before.files.get? (e ++ rel) ≠ none) :
    s.isDirectory? (source.append rel) = .ok (isDirectoryNode (before.files.get? (e ++ rel))) ∧
      s.isLink? (source.append rel) = .ok false := by
  have hstraight := hm.straight h
  by_cases hdone : IsDone policy before source e done rel
  · have hproper : ∀ x ∈ rel, IsProper x := fun x hx => h.straight.sound.files.proper_of_mem hn hx
    have hlook : ∀ follow, s.look follow (source.append rel) = .ok none := by
      intro follow
      rw [look_append_of_short follow hstraight.leads hstraight.sound (fun x hx => (hproper x hx).plain)
        (fun first text _ _ => hstraight.noLink first text) (.inl (h.ne_nil hdone.1)) fun x hx => (hproper x hx).short,
        (hm.goes rel hdone).1, ite_self]
    unfold Session.isDirectory? Session.isLink?
    rw [hlook, hlook, isDirectoryNode_eq_false.2 hdone.1.ne_directory]
    exact ⟨rfl, rfl⟩
  · have hsame := hm.source_eq h hdone
    rw [← hsame] at hn ⊢
    exact ⟨hstraight.isDirectory? hn, hstraight.isLink? hn⟩

/-- A directory of the project of which no entry has been done holds what it held at first. -/
private theorem names_moved (hm : Moved policy before s source e (d ++ names) done)
    (hd : before.files.get? (e ++ rel) = some .directory)
    (hnew : ∀ name, before.files.get? (e ++ rel ++ [name]) ≠ none → e ++ rel ++ [name] ∉ done) {found : List String}
    (hr : s.names? (source.append rel).written = .ok found) :
    sortNames found = sortNames (before.files.names (e ++ rel)) := by
  rw [(hm.straight h).eq_names (hm.directory h hd) hr]
  refine sortNames_eq_of_perm ((List.perm_ext_iff_of_nodup Files.nodup_names Files.nodup_names).2 fun name => ?_)
  rw [Files.mem_names, Files.mem_names]
  by_cases hdone : IsDone policy before source e done (rel ++ [name])
  · refine absurd hdone.2 ?_
    rw [← List.append_assoc]
    refine hnew name ?_
    rw [List.append_assoc]
    exact hdone.1.exists
  · rw [List.append_assoc, hm.source_eq h hdone]

/-- With the configuration of the policy, the walk moves one file after the other until one of them cannot be moved. -/
private theorem foldBelow_moved (hconfig : (policy.config.perform before).1 = .ok config) (levels : Nat) :
    Ensures (fun t => t = before) (foldBelow true (fun _ path => moveFile policy source target path) levels () source)
      (fun _ t => Moved policy before t source e (d ++ names) (before.files.below levels e))
      fun _ t => ∃ done, Moved policy before t source e (d ++ names) done := by
  have hnodup : (before.files.below levels (e ++ [])).Nodup := Files.nodup_below
  have hall : before.files.below levels (e ++ []) = [] ++ before.files.below levels (e ++ []) ++ [] := by simp
  have hn : before.files.get? (e ++ []) ≠ none := by
    rw [List.append_nil, h.straight.directory]
    exact Option.some_ne_none _
  have hfold : Ensures
      (fun t => Moved policy before t source e (d ++ names) [] ∧ (policy.config.perform t).1 = .ok config)
      (foldBelow true (fun _ path => moveFile policy source target path) levels () (source.append []))
      (fun _ t => Moved policy before t source e (d ++ names) ([] ++ before.files.below levels (e ++ [])) ∧
        (policy.config.perform t).1 = .ok config)
      fun _ t => ∃ done, Moved policy before t source e (d ++ names) done := by
    refine foldBelow_follows
      (fun done _ t => Moved policy before t source e (d ++ names) done ∧ (policy.config.perform t).1 = .ok config)
      (fun done _ t rel ht hn => looks_moved h ht.1 hn) (fun done _ t rel deeper rest found ht hsplit hd hr => ?_)
      (fun done _ t _ _ ht _ _ => ⟨done, ht.1⟩) (fun done rel rest _ hsplit hn => ?_) levels [] hn [] [] hall ()
    · -- the entries of a directory are visited only after it has been listed
      rw [hsplit, List.append_assoc] at hnodup
      refine names_moved h ht.1 hd (fun name hname hdone => ?_) hr
      refine List.disjoint_of_nodup_append hnodup hdone (List.mem_append_left _ ?_)
      rw [Files.below, if_pos hd]
      exact List.mem_flatMap.2 ⟨name, (sortBy_perm _ _).mem_iff.2 (Files.mem_names.2 hname), List.mem_cons_self ..⟩
    · rw [hsplit] at hnodup
      have hnew : e ++ rel ∉ done := fun hdone => List.disjoint_of_nodup_append hnodup hdone (List.mem_cons_self ..)
      exact (moveFile_ensures h hconfig hn hnew).mono (fun _ ht => ht) (fun _ _ ht => ht) fun _ _ ht => ⟨done, ht⟩
  rw [Path.append_nil, List.append_nil, List.nil_append] at hfold
  refine hfold.mono (fun t ht => ?_) (fun _ _ ht => ht.1) fun _ _ ht => ht
  rw [ht]
  exact ⟨.start h.straight.sound, hconfig⟩

/-- Without a configuration of the policy, the first regular file ends the walk. -/
private theorem foldBelow_unconfigured {f : Failure} (hconfig : (policy.config.perform before).1 = .error f)
    (levels : Nat) :
    Preserves (fun t => t = before)
      (foldBelow true (fun _ path => moveFile policy source target path) levels () source) := by
  obtain ⟨g, hkind⟩ := h.kind
  refine foldBelow_preserves (fun _ path => ?_) true levels () source
  unfold moveFile
  refine (Preserves.query _).bind fun b => ?_
  split
  · exact Preserves.pure _
  · refine ⟨?_⟩
    rintro _ rfl
    rw [perform_bind_error (Policy.perform_isStudentFile_error hkind hconfig path source)]
    rfl

/-- However moving the student files ends, some locations are done, and on success those of all student files. -/
theorem moveFiles_moved :
    Ensures (fun t => t = before) (moveFiles policy source target)
      (fun _ t => ∃ done, Moved policy before t source e (d ++ names) done ∧
        ∀ rel, IsStudentFile policy before source e rel → e ++ rel ∈ done)
      fun _ t => ∃ done, Moved policy before t source e (d ++ names) done := by
  unfold moveFiles
  refine Ensures.get_bind_of_eq ?_
  cases hconfig : (policy.config.perform before).1 with
  | error f =>
    obtain ⟨g, hkind⟩ := h.kind
    have hnone : ∀ rel, ¬ IsStudentFile policy before source e rel := by
      rintro rel ⟨-, hstudent⟩
      rw [Policy.perform_isStudentFile_error hkind hconfig] at hstudent
      cases hstudent
    have hstart : Moved policy before before source e (d ++ names) [] := .start h.straight.sound
    exact (foldBelow_unconfigured h hconfig _).ensures.mono (fun _ ht => ht)
      (fun _ t ht => ⟨[], ht ▸ hstart, fun rel hrel => absurd hrel (hnone rel)⟩) fun _ t ht => ⟨[], ht ▸ hstart⟩
  | ok config =>
    refine (foldBelow_moved h hconfig _).mono (fun _ ht => ht) (fun _ t ht => ⟨_, ht, fun rel hrel => ?_⟩) fun _ _ ht => ht
    refine (Files.mem_below h.straight.sound.files fun rel hn => ?_).2 ⟨rel, h.ne_nil hrel, rfl, hrel.exists⟩
    have hlength := Files.length_le_height hn
    rw [List.length_append] at hlength
    unfold nesting
    omega

end Run

/-! ### Runs -/

/-- It is enough to look at what is stored in the target. -/
private theorem free_of_entries (hne : place ≠ []) (h : ∀ y ∈ s.files.entries, place <+: y.1 →
      isFileNode (s.files.get? (e ++ y.1.drop place.length)) = true → s.files.get? y.1 ≠ some .directory)
    (hrel : IsStudentFile policy s source e rel) : s.files.get? (place ++ rel) ≠ some .directory := by
  intro hdir
  have hn : s.files.get? (place ++ rel) ≠ none := by
    rw [hdir]
    exact Option.some_ne_none _
  obtain ⟨node, hmem⟩ := (Files.get?_eq_some_iff_mem (List.append_ne_nil_of_left_ne_nil hne rel)).1 hn
  refine h _ hmem (List.prefix_append place rel) ?_ hdir
  rw [List.drop_left]
  exact hrel.1

/-- A project with two student files, a directory with a file in the place of a directory, and one with files in the
places of a directory and of a student file. -/
def sampleMoves : Session where
  workingDir := []
  scratch := ["tmp"]
  files := ⟨[(["p"], .directory), (["p", "build.xml"], .file [] false), (["p", "src"], .directory),
    (["p", "src", "a"], .directory), (["p", "src", "a", "X"], .file [1] false), (["p", "src", "b"], .directory),
    (["p", "src", "b", "Y"], .file [2] false), (["blocked"], .directory), (["blocked", "src"], .directory),
    (["blocked", "src", "b"], .file [] false), (["twins"], .directory), (["twins", "src"], .directory),
    (["twins", "src", "a"], .file [] false), (["twins", "src", "b"], .directory),
    (["twins", "src", "b", "Y"], .file [2] false)]⟩

theorem sampleMoves_transfer (name : String) (hname : IsProper name) (hne : name ≠ "p")
    (hfree : ∀ y ∈ sampleMoves.files.entries, [name] <+: y.1 →
      isFileNode (sampleMoves.files.get? (["p"] ++ y.1.drop 1)) = true → sampleMoves.files.get? y.1 ≠ some .directory) :
    Transfer sampleMoves Policy.sampleAnt ⟨.relative, ["p"]⟩ ⟨.relative, [name]⟩ ⟨.relative, []⟩ ["p"] [] [name] where
  straight := by
    have hsound : sampleMoves.Sound := ⟨Files.wellFormed_of_entries (by decide +kernel), rfl⟩
    refine ⟨hsound, ?_, by decide +kernel, fun _ => Files.get?_ne_link (by decide +kernel) _⟩
    have hleads : sampleMoves.LeadsTo ⟨.relative, []⟩ [] := ⟨0, Nat.zero_le _, .here _⟩
    exact reaches_child hleads hsound (by decide) (Files.get?_ne_link (by decide +kernel) _)
  destination := ⟨rfl, ⟨0, Nat.zero_le _, .here _⟩, by simpa using hname.toIsName,
    fun _ => Files.get?_ne_link (by decide +kernel) _⟩
  outside h := hne (List.cons_prefix_cons.1 h).1.symm
  around h := hne (List.cons_prefix_cons.1 h).1
  kind := ⟨_, rfl⟩
  inside _ h := nomatch h
  free _ := free_of_entries (by simp) hfree

end Handout.Exercise

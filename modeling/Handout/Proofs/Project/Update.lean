import Handout.Proofs.Project.Verdict

/-!
# Student work survives an update

An update makes the directory of the project and then visits the exercise path by path; both keep the invariant
`Progress` (`makeProject_ensures`, `updatePath_ensures`).  When it succeeds, all paths have had their turn.  Hence
`update_student_files`: for every archive, every policy of an ecosystem and every point of failure, only files of the
exercise that were no student files are replaced, and after a success all of them are.
-/

namespace Handout.Project

open Handout.Action

variable {u : Setting} {done : List Location} {s : Session} {x : Location} {rel : List String}

/-! ### The directory of the project -/

/-- Below a link nothing is made. -/
private theorem same_of_link (hu : u.Valid) (h : Progress u [] s) {d : Location} {name : String} {rest : List String}
    {target : String} (hloc : u.loc = d ++ name :: rest) (hd : u.before.files.get? d = some .directory)
    (hlink : u.before.files.get? (d ++ [name]) = some (.link target)) (hx : u.Outside x) :
    s.files.get? x = u.before.files.get? x := by
  cases h.outside x hx with
  | same h => exact h
  | copied _ _ _ _ hdone => cases hdone
  | made hold hnew hmade =>
    exfalso
    obtain ⟨more, hmore⟩ : ∃ more, x <+: d ++ [name] ++ more := by
      rcases hmade with hx | ⟨rel, hx, -⟩
      · exact ⟨rest, by rwa [List.append_assoc, List.singleton_append, ← hloc]⟩
      · exact ⟨rest ++ rel, by rw [hx, hloc]; simp⟩
    rcases List.prefix_or_prefix_of_prefix hmore (List.prefix_append _ _) with hx | ⟨r, hr⟩
    · rcases List.prefix_concat_iff.1 hx with rfl | ⟨r, hr⟩
      · rw [hlink] at hold
        cases hold
      · have hd' : u.before.files.get? (x ++ r) ≠ none := by
          rw [hr, hd]
          exact Option.some_ne_none _
        by_cases hnil : r = []
        · rw [hnil, List.append_nil] at hd'
          exact hd' hold
        · rw [hu.ready.sound.files.ancestor hd' hnil] at hold
          cases hold
    · have hnew' : s.files.get? (d ++ [name] ++ r) ≠ none := by
        rw [hr, hnew]
        exact Option.some_ne_none _
      have hlink' := h.link hu hlink
      by_cases hnil : r = []
      · rw [← hr, hnil, List.append_nil, hlink'] at hnew
        cases hnew
      · rw [h.sound.files.ancestor hnew' hnil] at hlink'
        cases hlink'

private theorem room_of_missing (hu : u.Valid) {known : Path} {d : Location} {name : String} {rest : List String}
    (hloc : u.loc = d ++ name :: rest) (hleads : u.before.LeadsTo known d) (hnamed : ∀ c ∈ name :: rest, IsName c)
    (hdir : u.before.files.get? (d ++ [name]) ≠ some .directory)
    (hlink : ∀ target, u.before.files.get? (d ++ [name]) ≠ some (.link target)) :
    Room (Alone (Progress u [])) known d (name :: rest) := by
  refine Room.alone hnamed (fun s hs => ⟨hs.sound, hs.leads hu hleads, ?_⟩) ?_
  · intro first target hne hfirst
    refine hs.noLink hu ?_
    obtain ⟨c, r, rfl⟩ := List.exists_cons_of_ne_nil hne
    obtain ⟨rfl, -⟩ := List.cons_prefix_cons.1 hfirst
    by_cases hr : r = []
    · rw [hr]
      exact hlink target
    · rw [List.append_cons, hu.ready.sound.files.get?_below hdir hr]
      simp
  · intro s first c hs hfirst hc hd hn
    have hprefix : d ++ first ++ [c] <+: u.loc := by
      rw [hloc, List.append_assoc]
      exact (List.prefix_append_right_inj d).2 hfirst
    exact hs.make hu (fun hx => hu.outside_loc (hx.trans hprefix)) hd hc hn (.inl hprefix)

/-- The directory of the project is made if need be. -/
theorem makeProject_ensures (hu : u.Valid) :
    Ensures (Progress u []) (Archive.makeDirectory u.project) (fun _ => Underway u []) fun _ => Progress u [] := by
  cases hu.target with
  | present hleads =>
    have hroom : Room (Alone (Progress u [])) u.project u.loc [] :=
      Room.alone nofun (fun s hs => ⟨hs.sound, hs.leads hu hleads, fun first _ hne hfirst =>
        absurd (List.prefix_nil.1 hfirst) hne⟩) fun s first c hs hfirst => by simp at hfirst
    have hmake := Archive.makeDirectory_ensures hroom
    rw [Path.append_nil, List.append_nil] at hmake
    exact hmake.mono (fun _ hs => hs) (fun _ _ hs => ⟨hs.1, hs.2⟩) fun _ _ hs => hs
  | @missing known d name rest path place hleads named nowhere =>
    have hdir : u.before.files.get? (d ++ [name]) ≠ some .directory := fun hdir =>
      nowhere u.before hu.ready.sound rfl (fun _ _ => rfl) _ (hleads.append hu.ready.sound hdir)
    rw [path]
    by_cases hlink : ∃ target, u.before.files.get? (d ++ [name]) = some (.link target)
    · obtain ⟨target, hlink⟩ := hlink
      have hdangling : ∀ s, Progress u [] s → Dangling s known d name := fun s hs =>
        ⟨hs.sound, hs.leads hu hleads, (named name (List.mem_cons_self ..)).plain, ⟨target, hs.link hu hlink⟩,
          nowhere s hs.sound hs.workingDir fun x hx =>
            same_of_link hu hs place (hleads.directory hu.ready.sound) hlink hx⟩
      exact ((makeDirectories_dangling hdangling).during _ _).mono (fun _ hs => hs) (fun _ _ h => h.elim)
        fun _ _ hs => hs
    · have hroom := room_of_missing hu place hleads named hdir fun target h => hlink ⟨target, h⟩
      refine (Archive.makeDirectory_ensures hroom).mono (fun _ hs => hs) (fun _ s hs => ⟨hs.1, ?_⟩) fun _ _ hs => hs
      rw [place]
      exact hs.2

/-! ### One path -/

theorem join_relativeTo (project : Path) (root : Location) (rel : List String) :
    project.join (((Location.path (root ++ rel)).relativeTo? root.path).getD (Location.path (root ++ rel))) =
      project.append rel := by
  have hprefix : root.isPrefixOf (root ++ rel) = true := List.isPrefixOf_iff_prefix.2 (List.prefix_append _ _)
  have hrelative : (Location.path (root ++ rel)).relativeTo? root.path = some ⟨.relative, rel⟩ := by
    unfold Path.relativeTo? Location.path
    rw [if_pos ⟨rfl, hprefix⟩, List.drop_left]
  rw [hrelative]
  rfl

/-- The directories on the way to a directory of the exercise may be made. -/
private theorem room_of_directory (hu : u.Valid) (hdir : u.exercise? rel = some .directory) :
    Room (Alone (Underway u done)) u.project u.loc rel := by
  have hn : u.exercise? rel ≠ none := by
    rw [hdir]
    exact Option.some_ne_none _
  refine Room.alone (hu.exercise_named hn)
    (fun s hs => ⟨hs.sound, (hs.rooted hu).leads, (hs.rooted hu).clear rel⟩) ?_
  rintro s first c hs ⟨rest, rfl⟩ hc hd hnone
  have hexercise : u.exercise? (first ++ [c]) = some .directory := by
    by_cases hr : rest = []
    · rwa [hr, List.append_nil] at hdir
    · exact hu.exercise_parent hn hr
  have ho : u.Outside (u.loc ++ first ++ [c]) := by
    rw [List.append_assoc]
    exact hu.apart _ (by rw [hexercise]; exact Option.some_ne_none _)
  have hmade : IsMade u (u.loc ++ first ++ [c]) := .inr ⟨first ++ [c], List.append_assoc .., hexercise⟩
  refine ⟨hs.make hu ho hd hc hnone hmade, ?_⟩
  dsimp only
  rw [Files.get?_put_of_ne (by simp) (by simp)]
  exact hs.there

/-- Copying a file of the exercise. -/
private theorem copy_ensures (hu : u.Valid) (hdone : u.root ++ rel ∉ done) {data : Bytes} {executable : Bool}
    (hfile : u.exercise? rel = some (.file data executable)) (hkeep : ¬ u.Keeps rel) (p q : FileName) :
    Ensures (fun s => Underway u done s ∧ ∀ e, u.policy.kind = .ecosystem e → ∃ c, Loaded u s c)
      (copyContent p (Location.path (u.root ++ rel)).written q (u.project.append rel).written)
      (fun _ => Underway u (done ++ [u.root ++ rel])) fun _ => Underway u done := by
  have hn : u.exercise? rel ≠ none := by
    rw [hfile]
    exact Option.some_ne_none _
  refine (copyContent_ensures ?_).mono (fun _ hs => hs) (fun _ _ hs => hs) fun _ _ hs => hs.1
  rintro s place loc' data' executable' flag ⟨hs, hc⟩ hz hsource htarget hflag
  have hrooted := hs.rooted hu
  have hdata : data' = data := by
    have hfind := hsource.symm.trans ((hs.steady hu).find true hn)
    rw [show u.files.get? (u.root ++ rel) = _ from hfile] at hfind
    cases hfind
    rfl
  obtain ⟨init, c, hrel, hproper, hloc, hnode, hd⟩ := stored_at ⟨hs.sound, hrooted.leads, hrooted.clear rel⟩
    (hu.exercise_named hn) hz (.inr rfl) htarget hflag.ne_directory
  rw [List.append_assoc, ← hrel] at hloc hnode
  rw [hnode] at hflag
  rw [hloc, hdata]
  refine ⟨hs.copy hu hrel hd hproper hdone hfile hkeep hflag fun e he => ?_, ?_⟩
  · obtain ⟨c, hc⟩ := hc e he
    exact ⟨c, hc.lookup, hc.original⟩
  · have hne := hu.ne_nil_of_file hfile
    dsimp only
    rw [Files.get?_put_of_ne (by simp [hne]) (by simp [hne])]
    exact hs.there

/-- A path of the exercise is settled when its turn comes. -/
theorem updatePath_ensures (hu : u.Valid) (hn : u.exercise? rel ≠ none) (hdone : u.root ++ rel ∉ done) :
    Ensures (Underway u done) (updatePath u.policy u.root.path u.project (Location.path (u.root ++ rel)))
      (fun _ => Underway u (done ++ [u.root ++ rel])) fun _ => Underway u done := by
  unfold updatePath
  rw [join_relativeTo]
  refine (Steady.isDirectory_ensures (fun s hs => hs.steady hu) hn).bind fun b => Ensures.of_and fun hb => ?_
  subst hb
  cases hnode : u.exercise? rel with
  | none => exact absurd hnode hn
  | some node =>
    rw [show u.files.get? (u.root ++ rel) = some node from hnode]
    cases node with
    | link target => exact absurd hnode (hu.exercise_noLink rel target)
    | directory =>
      refine (Archive.makeDirectory_ensures (room_of_directory hu hnode)).mono (fun _ hs => hs) (fun _ s hs => ?_)
        fun _ _ hs => hs
      exact ⟨hs.1.skip hu hdone (by simp [hnode]) fun _ => hs.2, hs.1.there⟩
    | file data executable =>
      refine (classify_ensures hu hdone hnode).bind fun v => Ensures.of_and fun hv => ?_
      split
      · rename_i hstudent
        exact Ensures.pure fun s hs =>
          ⟨hs.1.skip hu hdone (fun _ _ _ => hv.1 hstudent) (by simp [hnode]), hs.1.there⟩
      · rename_i hstudent
        exact (copy_ensures hu hdone hnode (fun hk => hstudent (hv.2 hk)) _ _).during _ _

/-! ### The whole exercise -/

/-- Puts an unpacked exercise into a project. -/
def install (policy : Policy) (project exercise : Path) : Action Unit := do
  Archive.makeDirectory project
  let levels := (← get).files.height + 1
  Action.foldBelow true (fun _ path => updatePath policy exercise project path) levels () exercise

/-- The whole exercise is installed, unless the installation fails. -/
theorem install_finishes (hu : u.Valid) :
    Ensures (Progress u []) (install u.policy u.project u.root.path)
      (fun _ s => ∃ done, Underway u done s ∧ ∀ rel, rel ≠ [] → u.exercise? rel ≠ none → u.root ++ rel ∈ done)
      fun _ s => ∃ done, Progress u done s := by
  refine ((makeProject_ensures hu).mono (fun _ hs => hs) (fun _ _ hs => hs) fun _ s hs => ⟨[], hs⟩).bind fun _ => ?_
  refine Ensures.get_bind fun s => ?_
  by_cases hs : Underway u [] s
  · have hbound : ∀ rel, u.files.get? (u.root ++ rel) ≠ none → rel.length ≤ s.files.height + 1 := by
      intro rel hn
      have hlength := Files.length_le_height (x := u.root ++ rel) (f := s.files)
        (by rw [(hs.steady hu).same]; exact hn)
      rw [List.length_append] at hlength
      omega
    have hroot : u.files.get? (u.root ++ []) ≠ none := by
      rw [show u.files.get? (u.root ++ []) = _ from hu.exercise]
      exact Option.some_ne_none _
    have hvisits : ∀ done x rest (acc : Unit), u.files.below (s.files.height + 1) (u.root ++ []) = done ++ x :: rest →
        Ensures (Underway u done) (updatePath u.policy u.root.path u.project x.path)
          (fun _ => Underway u (done ++ [x])) fun _ s => ∃ done, Progress u done s := by
      intro done x rest _ hall
      have hnodup : (done ++ x :: rest).Nodup := hall ▸ Files.nodup_below
      have hdone : x ∉ done := fun hx =>
        (List.nodup_append.1 hnodup).2.2 x hx x (List.mem_cons_self ..) rfl
      have hx : x ∈ u.files.below (s.files.height + 1) (u.root ++ []) := by
        rw [hall]
        simp
      rw [List.append_nil] at hx
      obtain ⟨rel, -, rfl, hn⟩ := Files.exists_of_mem_below hx
      exact (updatePath_ensures hu hn hdone).mono (fun _ hs => hs) (fun _ _ hs => hs)
        fun _ s hs => ⟨done, hs.toProgress⟩
    have hfold := foldBelow_ensures (fun done _ => Underway u done) (fun _ _ _ hs => hs.steady hu)
      (fun done _ s _ _ hs _ _ => ⟨done, hs.toProgress⟩) hvisits (s.files.height + 1) [] hroot [] [] (by simp) ()
    rw [List.append_nil, List.nil_append] at hfold
    refine hfold.mono (fun t ht => ht.2) (fun _ t ht => ⟨_, ht, fun rel hr hn => ?_⟩) fun _ _ ht => ht
    exact (Files.mem_below hu.files hbound).2 ⟨rel, hr, rfl, hn⟩
  · rintro t ⟨rfl, ht⟩
    exact absurd ht hs

/-- The whole exercise is settled, unless the installation fails. -/
theorem install_ensures (hu : u.Valid) :
    Ensures (Progress u []) (install u.policy u.project u.root.path)
      (fun _ s => ∃ done, Progress u done s ∧ ∀ rel, rel ≠ [] → u.exercise? rel ≠ none → u.root ++ rel ∈ done)
      fun _ s => ∃ done, Progress u done s :=
  (install_finishes hu).mono (fun _ hs => hs) (fun _ _ ⟨done, hs, hall⟩ => ⟨done, hs.toProgress, hall⟩) fun _ _ hs => hs

/-! ### The temporary directory -/

/-- An update unpacks the exercise, installs it and removes the temporary directory. -/
theorem perform_update (policy : Policy) (archive project : Path) (s : Session) :
    (update policy archive project).perform s =
      let o := (unpack archive >>= install policy project).perform s
      (o.1, { o.2 with files := o.2.files.eraseTree s.scratch }) := by
  have hunpack : (unpack archive).perform s =
      (Archive.extract archive s.scratch.path >>= fun _ => Archive.findProject archive s.scratch.path).perform
        { s with files := s.files.put s.scratch .directory } := rfl
  rw [perform_bind, hunpack, ← perform_bind, bind_assoc]
  exact perform_withScratch _ s

/-- What is stored at a path of the project in an archive. -/
def exercise? (s : Session) (archive : Path) (rel : List String) : Option Node :=
  match (unpack archive).perform s with
  | (.ok root, t) => t.files.get? (root.parts ++ rel)
  | (.error _, _) => none

/-- When the archive is unpacked, the installation can start. -/
theorem progress_start {policy : Policy} {project : Path} {loc root : Location} {t : Session}
    (hnew : s.loaded.lookup policy.number = none) (ht : Unpacked s t) :
    Progress ⟨policy, s, project, loc, t.files, root⟩ [] t where
  sound := ht.sound
  scratchDir := ht.scratchDir
  workingDir := ht.workingDir
  locked := ht.locked
  scratch _ := rfl
  outside x hx := .same (ht.outside x hx)
  settled _ h := nomatch h
  furnished _ h := nomatch h
  configured _ _ := .inl ⟨by rw [ht.loaded]; exact hnew, fun x hx => .inl (ht.outside x hx)⟩

/-- An update of a project that holds no links replaces only files of the exercise that were no student files, and if
it succeeds, all of them. -/
theorem update_student_files {s : Session} {policy : Policy} {archive project : Path} {loc : Location} (hs : s.Ready)
    (hkind : policy.kind = .nothing ∨ ∃ e, policy.kind = .ecosystem e) (hparent : policy.configParent = project)
    (hnew : s.loaded.lookup policy.number = none) (htarget : Target s project loc)
    (hlink : ∀ rel target, rel ≠ [] → s.files.get? (loc ++ rel) ≠ some (.link target))
    (hapart : ∀ rel, exercise? s archive rel ≠ none → ¬ s.scratch <+: loc ++ rel) :
    let o := (update policy archive project).perform s
    (∀ x, o.2.files.get? x = s.files.get? x ∨
      (s.files.get? x = none ∧ o.2.files.get? x = some .directory) ∨
      ∃ rel data executable flag, x = loc ++ rel ∧ exercise? s archive rel = some (.file data executable) ∧
        ¬ policy.Keeps s project rel ∧ Flagged (s.files.get? x) flag ∧
        o.2.files.get? x = some (.file data flag)) ∧
    (o.1 = .ok () → ∀ rel data executable, exercise? s archive rel = some (.file data executable) →
      (policy.Keeps s project rel →
        s.files.get? (loc ++ rel) ≠ none ∧ o.2.files.get? (loc ++ rel) = s.files.get? (loc ++ rel)) ∧
      (¬ policy.Keeps s project rel → ∃ flag, o.2.files.get? (loc ++ rel) = some (.file data flag))) := by
  have hunpack := unpack_ensures archive hs s rfl
  rw [perform_update, perform_bind]
  unfold exercise? at hapart ⊢
  rcases hp : (unpack archive).perform s with ⟨r, t⟩
  rw [hp] at hunpack
  cases r with
  | error e =>
    refine ⟨fun x => .inl ?_, nofun⟩
    rcases hs.get?_eraseTree t.files x with h | ⟨hx, h⟩
    · exact h
    · exact h.trans (hunpack.outside x hx)
  | ok root =>
    obtain ⟨ht, r, rfl, hdir⟩ := hunpack
    simp only [hp] at hapart ⊢
    let u : Setting := ⟨policy, s, project, loc, t.files, s.scratch ++ r⟩
    have hexercise : u.exercise? [] = some .directory := by
      unfold Setting.exercise?
      rw [List.append_nil]
      exact hdir
    have hu : u.Valid :=
      ⟨hs, hkind, hparent, hnew, htarget, hlink, ht.sound.files, ht.noLink, ⟨r, rfl⟩, hexercise, hapart⟩
    have hinstall := install_ensures hu t (progress_start hnew ht)
    have hchanges : ∀ done t', Progress u done t' → ∀ x, (t'.files.eraseTree s.scratch).get? x = s.files.get? x ∨
        (s.files.get? x = none ∧ (t'.files.eraseTree s.scratch).get? x = some .directory) ∨
        ∃ rel data executable flag, x = loc ++ rel ∧ u.exercise? rel = some (.file data executable) ∧
          ¬ u.Keeps rel ∧ Flagged (s.files.get? x) flag ∧
          (t'.files.eraseTree s.scratch).get? x = some (.file data flag) := by
      intro done t' ht' x
      rcases hs.get?_eraseTree t'.files x with h | ⟨hx, h⟩
      · exact .inl h
      · rw [h]
        cases ht'.outside x hx with
        | same h => exact .inl h
        | made hold hnew => exact .inr (.inl ⟨hold, hnew⟩)
        | copied rel data executable flag _ hx hfile hkeep hold hnew =>
          exact .inr (.inr ⟨rel, data, executable, flag, hx, hfile, hkeep, hold, hnew⟩)
    rcases hi : (install policy project (Location.path (s.scratch ++ r))).perform t with ⟨r', t'⟩
    rw [show (install u.policy u.project u.root.path).perform t = (r', t') from hi] at hinstall
    cases r' with
    | error e =>
      obtain ⟨done, hdone⟩ := hinstall
      exact ⟨hchanges done t' hdone, nofun⟩
    | ok a =>
      obtain ⟨done, hdone, hall⟩ := hinstall
      refine ⟨hchanges done t' hdone, fun _ rel data executable hfile => ?_⟩
      have hn : u.exercise? rel ≠ none := by
        rw [show u.exercise? rel = _ from hfile]
        exact Option.some_ne_none _
      have hend : (t'.files.eraseTree s.scratch).get? (loc ++ rel) = t'.files.get? (loc ++ rel) :=
        Files.get?_eraseTree_of_not_below hs.scratch_ne_nil (hu.apart rel hn)
      obtain ⟨hkept, hreplaced⟩ := hdone.settled rel (hall rel (hu.ne_nil_of_file hfile) hn) data executable hfile
      dsimp only
      rw [hend]
      exact ⟨fun hk => ⟨fun hnone => not_keeps_of_none hu hfile hnone hk, hkept hk⟩, hreplaced⟩

/-- An archive of a project with two empty files, `Makefile` and `src`. -/
def sampleArchive : Bytes :=
  [80, 75, 3, 4, 20, 0, 0, 0, 0, 0, 0, 0, 33, 0, 0, 0, 0, 0, 0, 0, 0, 0, 0, 0, 0, 0, 8, 0, 0, 0, 77, 97, 107,
   101, 102, 105, 108, 101, 80, 75, 3, 4, 20, 0, 0, 0, 0, 0, 0, 0, 33, 0, 0, 0, 0, 0, 0, 0, 0, 0, 0, 0, 0, 0,
   3, 0, 0, 0, 115, 114, 99, 80, 75, 1, 2, 20, 0, 20, 0, 0, 0, 0, 0, 0, 0, 33, 0, 0, 0, 0, 0, 0, 0, 0, 0, 0,
   0, 0, 0, 8, 0, 0, 0, 0, 0, 0, 0, 0, 0, 0, 0, 0, 0, 0, 0, 0, 0, 77, 97, 107, 101, 102, 105, 108, 101, 80,
   75, 1, 2, 20, 0, 20, 0, 0, 0, 0, 0, 0, 0, 33, 0, 0, 0, 0, 0, 0, 0, 0, 0, 0, 0, 0, 0, 3, 0, 0, 0, 0, 0, 0,
   0, 0, 0, 0, 0, 0, 0, 38, 0, 0, 0, 115, 114, 99, 80, 75, 5, 6, 0, 0, 0, 0, 2, 0, 2, 0, 103, 0, 0, 0, 71, 0,
   0, 0, 0, 0]

/-- A session in a directory `w` that holds the archive `x.zip` and some files more. -/
def sampleSession (more : List (Location × Node)) : Session where
  files := ⟨[(["w"], .directory), (["w", "x.zip"], .file sampleArchive false)] ++ more⟩
  workingDir := ["w"]
  scratch := ["t"]

/-- The update of a project in the sample session. -/
def sampleUpdate (project : Path) : Action Unit :=
  update ⟨.ecosystem .make, project, 0⟩ ⟨.relative, ["x.zip"]⟩ project

/-- The student has changed both files of the project `p`.  Then `src` is kept, and `Makefile` is replaced. -/
theorem sampleUpdate_present :
    let s := sampleSession [(["w", "p"], .directory), (["w", "p", "Makefile"], .file [1] false),
      (["w", "p", "src"], .file [2] true)]
    let o := (sampleUpdate ⟨.relative, ["p"]⟩).perform s
    o.2.files.get? ["w", "p", "src"] = some (.file [2] true) ∧
      ∃ flag, o.2.files.get? ["w", "p", "Makefile"] = some (.file [] flag) := by
  intro s
  have hunlinked : s.Unlinked := by decide +kernel
  have hleads : s.LeadsTo ⟨.relative, ["p"]⟩ ["w", "p"] := Session.leadsTo_iff_find.2 (by decide +kernel)
  have hlinks : ∀ rel target, rel ≠ [] → s.files.get? (["w", "p"] ++ rel) ≠ some (.link target) :=
    fun rel target _ => hunlinked.ne_link _ target
  have h := @update_student_files s ⟨.ecosystem .make, ⟨.relative, ["p"]⟩, 0⟩ ⟨.relative, ["x.zip"]⟩
    ⟨.relative, ["p"]⟩ ["w", "p"] hunlinked.ready (.inr ⟨.make, rfl⟩) rfl rfl (.present hleads) hlinks
    (fun rel _ => by simp [s, sampleSession])
  have hok : ((sampleUpdate ⟨.relative, ["p"]⟩).perform s).1 = .ok () := by decide +kernel
  have hsrc : exercise? s ⟨.relative, ["x.zip"]⟩ ["src"] = some (.file [] false) := by decide +kernel
  have hmakefile : exercise? s ⟨.relative, ["x.zip"]⟩ ["Makefile"] = some (.file [] false) := by decide +kernel
  unfold sampleUpdate at hok ⊢
  generalize (update _ _ _).perform s = o at h hok ⊢
  exact ⟨((h.2 hok ["src"] [] false hsrc).1 (by decide +kernel)).2.trans (by decide +kernel),
    (h.2 hok ["Makefile"] [] false hmakefile).2 (by decide +kernel)⟩

/-- There is no project at `a/src/..`.  The update makes a directory `src` on the way to it and then takes this for
the student's, although there was nothing before. -/
theorem sampleUpdate_missing :
    let s := sampleSession []
    let project : Path := ⟨.relative, ["a", "src", ".."]⟩
    let o := (sampleUpdate project).perform s
    s.Ready ∧ s.files.links = 0 ∧ s.exists? project = .ok false ∧
      exercise? s ⟨.relative, ["x.zip"]⟩ ["src"] = some (.file [] false) ∧
      ¬ Policy.Keeps ⟨.ecosystem .make, project, 0⟩ s project ["src"] ∧
      o.1 = .ok () ∧ o.2.find true (project.append ["src"]) = .ok ⟨["w", "a", "src"], some .directory⟩ := by
  refine ⟨Session.Unlinked.ready (by decide +kernel), ?_, ?_, ?_, ?_, ?_, ?_⟩
  all_goals decide +kernel

end Handout.Project

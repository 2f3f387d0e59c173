import Handout.Proofs.Project.Acceptance
import Handout.Proofs.Project.Table
import Handout.Proofs.Submission.Extra

/-!
# Policies and layouts agree

A policy tells the student's files by names and entries, and a layout lists the parts of a project from the same
defaults and entries, each in its own way.  They agree: what a policy gives to the student is under one of the student
parts (`Policy.covers_of_verdict`), and some copy of a package takes it from the received project
(`Packed.exists_student_layer`).  The names that count are those behind which a path is found below the project
(`Policy.student_in_layout`); a path with `..` may be written otherwise (`Policy.sampleDetour_outside`).
-/

namespace Handout

open Handout.Action

variable {s : Session} {project p : Path} {loc : Location} {rel : List String} {e : Ecosystem} {c : Config} {l : PackagingLayout}
  {policy : Policy} {given : Option Config} {updating : Bool} {defaults extras parts : List Path} {q : Path}

/-! ### The parts of a project -/

/-- Parts of a project are its defaults in their own order, and behind them the extras that are not among these, in the
order of paths.  No part is listed twice. -/
structure Joined (defaults extras parts : List Path) : Prop where
  nodup : parts.Nodup
  others : ∃ others, parts = defaults ++ others ∧ Path.IsIncreasing others ∧ ∀ q, q ∈ others ↔ q ∈ extras ∧ q ∉ defaults

private theorem eraseDups_of_nodup {α : Type} [BEq α] [LawfulBEq α] {l : List α} (h : l.Nodup) : l.eraseDups = l := by
  induction l with
  | nil => rfl
  | cons a l ih =>
    obtain ⟨ha, hl⟩ := List.nodup_cons.1 h
    have hkeep : l.filter (fun b => !b == a) = l := List.filter_eq_self.2 fun b hb => by
      have hne : b ≠ a := fun hba => ha (hba ▸ hb)
      simpa using hne
    rw [List.eraseDups_cons, hkeep, ih hl]

theorem joined_eraseDups (hdefaults : defaults.Nodup) (hextras : Path.IsIncreasing extras) :
    Joined defaults extras (defaults ++ extras).eraseDups where
  nodup := nodup_eraseDups _
  others := by
    have hothers : Path.IsIncreasing (extras.removeAll defaults) := List.Pairwise.sublist List.filter_sublist hextras
    have hnodup : (extras.removeAll defaults).Nodup := hothers.imp And.right
    refine ⟨extras.removeAll defaults, ?_, hothers, fun q => ?_⟩
    · rw [List.eraseDups_append, eraseDups_of_nodup hdefaults, eraseDups_of_nodup hnodup]
    · unfold List.removeAll
      rw [List.mem_filter]
      simp

namespace Config

theorem Gives.isIncreasing {d : Document} {entries : List (Value × Value)} {key : ConfigKey} {ps : List Path}
    (h : Gives d entries key ps) : Path.IsIncreasing ps := by
  cases h with
  | missing | null => exact .nil
  | list _ _ _ hps => exact hps

/-- The entries of a configuration that is loaded are in order. -/
theorem isIncreasing_of_load (h : ((load project).perform s).1 = .ok c) (key : ConfigKey) :
    Path.IsIncreasing (c.paths key) := by
  have hempty : Path.IsIncreasing (Config.paths {} key) := by cases key <;> exact .nil
  rcases read_of_load h with rfl | ⟨d, hd⟩
  · exact hempty
  · rcases ofDocument_eq_ok.1 hd with ⟨-, rfl⟩ | ⟨entries, -, hgives⟩
    · exact hempty
    · exact (hgives key).isIncreasing

end Config

namespace Ecosystem

theorem perform_layout (h : ((Config.load project).perform s).1 = .ok c) :
    ((e.layout project).perform s).1 = .ok (e.layoutOf c) := by
  obtain ⟨t, ht⟩ := exists_perform_eq h
  unfold layout
  rw [perform_bind_ok ht]
  rfl

theorem joined_layoutOf (h : ((Config.load project).perform s).1 = .ok c) :
    Joined e.defaultStudentPaths c.extraStudentFiles (e.layoutOf c).studentPaths ∧
      Joined e.defaultExercisePaths c.extraExerciseFiles (e.layoutOf c).exercisePaths := by
  have hincreasing := Config.isIncreasing_of_load h
  constructor
  · exact joined_eraseDups (by cases e <;> decide +kernel) (hincreasing .extraStudentFiles)
  · exact joined_eraseDups (by cases e <;> decide +kernel) (hincreasing .extraExerciseFiles)

theorem covers_exercisePaths (h : Config.Covers c.extraExerciseFiles rel) :
    Config.Covers (e.layoutOf c).exercisePaths rel := by
  obtain ⟨q, hq, hprefix⟩ := h
  exact ⟨q, mem_exercisePaths.2 (.inr hq), hprefix⟩

end Ecosystem

/-! ### What the policy gives to the student -/

namespace Policy

/-- What is the student's by its names is under a student part. -/
theorem covers_of_verdict (h : verdict e c updating rel = .studentFile) :
    Config.Covers (e.layoutOf c).studentPaths rel := by
  unfold verdict at h
  split at h
  · cases h
  · split at h
    · cases h
    · split at h
      · rename_i hstudent
        rcases hstudent with ⟨q, hq, hprefix⟩ | hsource
        · exact ⟨q, Ecosystem.mem_studentPaths.2 (.inr hq), hprefix⟩
        · refine ⟨⟨.relative, Submission.sourcePlace e.style⟩, Ecosystem.mem_studentPaths.2 (.inl ?_),
            Submission.sourcePlace_prefix hsource⟩
          rw [Submission.defaultStudentPaths_eq]
          exact List.mem_singleton_self _
      · cases h

/-- A path that is classified as the student's has a real path, and is the student's by the names of this path below the
project. -/
theorem verdict_of_classify (hkind : policy.kind = .ecosystem e) (hs : s.Rooted project loc) (hc : c.Inside)
    (hgoes : policy.GoesBy s given c) (hp : ∀ q, s.resolve? p = .ok q → q = Location.path (loc ++ rel))
    (h : ((policy.classify p project given updating).perform s).1 = .ok .studentFile) :
    verdict e c updating rel = .studentFile := by
  let At (t : Session) : Prop := t.Rooted project loc ∧ ∀ q, t.resolve? p = .ok q → q = Location.path (loc ++ rel)
  have hclassify : Ensures (fun t => At t ∧ policy.GoesBy t given c) (policy.classify p project given updating)
      (fun v _ => v = .studentFile → verdict e c updating rel = .studentFile) fun _ _ => True := by
    unfold classify
    rw [hkind]
    dsimp only
    refine goesBy_bind (P := At) (fun _ loaded ht => ⟨ht.1.withLoaded loaded, ht.2⟩) ?_
    refine (Looks.ensures (Looks.query _) fun _ _ _ => trivial).bind fun there => ?_
    split
    · exact Ensures.pure fun _ _ => nofun
    · split
      · exact Ensures.pure fun _ _ => nofun
      · intro t ht
        cases hreal : t.resolve? p with
        | error f =>
          have hresolve : (resolve p).perform t = (.error f, t) := by
            unfold resolve
            rw [perform_query, hreal]
          unfold classifyExisting
          rw [perform_bind_error hresolve]
          trivial
        | ok q =>
          obtain rfl := ht.2 q hreal
          refine (classifyExisting_ensures (P := fun u => u = t) (fun u hu => hu ▸ ht.1) hc (fun u hu => hu ▸ hreal)
            updating fun _ _ _ _ => trivial).mono (fun _ hu => hu) (fun v u hv hstudent => ?_) (fun _ _ hu => hu) t rfl
          rw [← hv.2, hstudent]
  have hend := hclassify s ⟨⟨hs, hp⟩, hgoes⟩
  rcases hrun : (policy.classify p project given updating).perform s with ⟨r, t⟩
  rw [hrun] at h hend
  cases h
  exact hend rfl

end Policy

/-! ### What a package takes from the student -/

namespace Submission

variable {u : Session} {params : Params} {clone received tests : Path} {file : Bytes × Bool}

/-- A received file under a student part is taken to its place by some copy. -/
theorem exists_student_layer (hc : c.Inside) (hcovers : Config.Covers (e.layoutOf c).studentPaths rel)
    (hfile : u.file? received rel = some file) :
    ∃ l ∈ packageLayers u params clone e received tests c, l.file? rel = some file := by
  have hsome : u.file? received rel ≠ none := by
    rw [hfile]
    exact Option.some_ne_none _
  have hinside := inside_layout hc e
  have hof : ∀ {ls : List Layer}, (∀ l ∈ ls, AgreesWith (u.file? received) rel l) → (∃ l ∈ ls, l.place <+: rel) →
      ∃ l ∈ ls, l.file? rel = some file := by
    rintro ls hagrees ⟨l, hl, hreach⟩
    exact ⟨l, hl, (hagrees l hl hreach).trans hfile⟩
  have hoverlay : ∀ {ps : List Path} {q : Path}, q ∈ ps → (∀ q ∈ ps, Config.IsInside q) → q.parts <+: rel →
      ∃ l ∈ overlayLayers u received ps, l.file? rel = some file := by
    intro ps q hq hps hprefix
    refine hof (agreesWith_overlayLayers hps) ?_
    obtain ⟨l, hl, hreach⟩ := exists_layerIf hsome hprefix
    rw [← join_of_inside (hps q hq)] at hl
    exact ⟨l, List.mem_flatMap.2 ⟨q, hq, hl⟩, hreach⟩
  obtain ⟨q, hq, hprefix⟩ := hcovers
  have hstudent : ∀ q ∈ (e.layoutOf c).studentPaths, Config.IsInside q := fun q hq => hinside q (List.mem_append_left _ hq)
  unfold packageLayers
  rcases Ecosystem.mem_studentPaths.1 hq with hdefault | hextra
  · have hmerge : ∃ l ∈ mergeLayers u e.style received clone tests (e.layoutOf c), l.file? rel = some file := by
      cases hstyle : e.style with
      | maven =>
        obtain ⟨l, hl, hlayer⟩ := hoverlay hq hstudent hprefix
        exact ⟨l, List.mem_append_left _ (List.mem_append_left _ (List.mem_append_right _ hl)), hlayer⟩
      | make =>
        obtain ⟨l, hl, hlayer⟩ := hoverlay hq hstudent hprefix
        exact ⟨l, List.mem_append_left _ (List.mem_append_right _ hl), hlayer⟩
      | generic =>
        -- the sources are at the top of the project, so their own name is their place
        rw [defaultStudentPaths_eq, hstyle, List.mem_singleton] at hdefault
        subst hdefault
        obtain ⟨l, hl, hreach⟩ := exists_layerIf hsome hprefix
        have hlayer : l.file? rel = some file :=
          (agreesWith_layerIf (plain_of_isName (hstudent _ hq).2) l hl hreach).trans hfile
        refine ⟨l, List.mem_append_left _ (List.mem_append_left _ (List.mem_append_right _ ?_)), hlayer⟩
        refine List.mem_flatMap.2 ⟨_, hq, ?_⟩
        rwa [gathered_place (hstudent _ hq) (by decide)]
    obtain ⟨l, hl, hlayer⟩ := hmerge
    exact ⟨l, List.mem_append_left _ (List.mem_append_right _ hl), hlayer⟩
  · obtain ⟨l, hl, hlayer⟩ := hoverlay ((sortBy_perm Path.le _).mem_iff.2 hextra)
      (fun q hq => hc .extraStudentFiles q ((sortBy_perm _ _).mem_iff.1 hq)) hprefix
    exact ⟨l, List.mem_append_right _ hl, hlayer⟩

/-- A received file under a student part of the clone is taken to its place in the package. -/
theorem Packed.exists_student_layer {g : Session} {request : Request} (parts : Packed g request)
    (hrequest : request.Apart g) (hcovers : Config.Covers (parts.ecosystem.layoutOf parts.config).studentPaths rel)
    (hfile : parts.received.file? parts.project rel = some file) : ∃ l ∈ parts.layers, l.file? rel = some file := by
  obtain ⟨-, -, hoffers, -⟩ := parts.offers_eq hrequest
  refine Submission.exists_student_layer (Config.inside_of_load parts.load_eq) hcovers ?_
  unfold Session.file? at hfile ⊢
  rwa [hoffers]

end Submission

namespace Policy

/-- In a project without links, the policy of an ecosystem and its layout agree.  A path that the policy gives to the
student is under a student part by its names, or by those of its real path, and then a package takes it from the student.
What is under an extra exercise file is under an exercise part.  Both lists have the defaults in their order and then the
other extras in the order of paths, each once. -/
theorem student_in_layout (hkind : policy.kind = .ecosystem e) (hs : s.Rooted project loc)
    (hload : ((Config.load project).perform s).1 = .ok c) (hgoes : policy.GoesBy s given c) :
    ∃ l, ((e.layout project).perform s).1 = .ok l ∧
      (∀ p rel updating,
        p = project.append rel ∧ (∀ x ∈ rel, IsPlain x) ∨ s.resolve? p = .ok (Location.path (loc ++ rel)) →
        ((policy.classify p project given updating).perform s).1 = .ok .studentFile → Config.Covers l.studentPaths rel) ∧
      (∀ (g : Session) (request : Submission.Request) (parts : Submission.Packed g request), request.Apart g →
        parts.ecosystem = e → parts.config = c → ∀ rel file, Config.Covers l.studentPaths rel →
          parts.received.file? parts.project rel = some file → ∃ layer ∈ parts.layers, layer.file? rel = some file) ∧
      (∀ rel, Config.Covers c.extraExerciseFiles rel → Config.Covers l.exercisePaths rel) ∧
      Joined e.defaultStudentPaths c.extraStudentFiles l.studentPaths ∧
      Joined e.defaultExercisePaths c.extraExerciseFiles l.exercisePaths := by
  refine ⟨e.layoutOf c, Ecosystem.perform_layout hload, ?_, ?_, fun _ => Ecosystem.covers_exercisePaths,
    Ecosystem.joined_layoutOf hload⟩
  · intro p rel updating hp hclassify
    have hreal : ∀ q, s.resolve? p = .ok q → q = Location.path (loc ++ rel) := by
      intro q hq
      rcases hp with ⟨rfl, hplain⟩ | hreal
      · rw [hs.resolve?_append hplain] at hq
        split at hq
        · cases hq
        · exact (Except.ok.inj hq).symm
      · exact Except.ok.inj (hq.symm.trans hreal)
    exact covers_of_verdict (verdict_of_classify hkind hs (Config.inside_of_load hload) hgoes hreal hclassify)
  · rintro g request parts hrequest rfl rfl rel file hcovers hfile
    exact parts.exists_student_layer hrequest hcovers hfile

/-- A configured file at the top of a clone is the student's for the policy.  It is one of four student parts, and is
taken as it was received. -/
theorem sampleNotes_in_layout :
    let s := Submission.sampleNotesSession
    let clone : Path := ⟨.relative, ["c"]⟩
    let l : PackagingLayout := ⟨[⟨.relative, ["src", "main"]⟩, ⟨.relative, ["pom.xml"]⟩, ⟨.relative, ["src"]⟩,
      ⟨.relative, ["src", "test", "N"]⟩], [⟨.relative, ["src", "test"]⟩]⟩
    ((Ecosystem.maven.layout clone).perform s).1 = .ok l ∧
      Config.Covers l.studentPaths ["pom.xml"] ∧ l.studentPaths.Nodup ∧
      ∃ parts : Submission.Packed s Submission.sampleNotes, ∃ layer ∈ parts.layers,
        layer.file? ["pom.xml"] = some ([1], false) := by
  intro s clone l
  let policy : Policy := ⟨.ecosystem .maven, clone, 0⟩
  let c : Config :=
    { extraStudentFiles := [⟨.relative, ["pom.xml"]⟩, ⟨.relative, ["src"]⟩, ⟨.relative, ["src", "test", "N"]⟩] }
  have hrun : let received := (Submission.receive Submission.sampleNotes).perform s
      s.Unlinked ∧ s.find true clone = .ok ⟨["w", "c"], some .directory⟩ ∧
        ((Config.load clone).perform s).1 = .ok c ∧
        ((policy.classify (clone.append ["pom.xml"]) clone none false).perform s).1 = .ok .studentFile ∧
        ((Ecosystem.maven.layout clone).perform s).1 = .ok l ∧
        ((Submission.pack Submission.sampleNotes).perform s).1 = .ok () ∧
        received.1 = .ok (Location.path ["t", "received"], .maven) ∧
        received.2.file? (Location.path ["t", "received"]) ["pom.xml"] = some ([1], false) := by decide +kernel
  obtain ⟨hunlinked, hclone, hload, hclassify, hlayout, hpack, hreceive, hfile⟩ := hrun
  have hgoes : policy.GoesBy s none c := by
    unfold GoesBy
    rw [perform_config_of_new rfl, hload]
  have hrequest : Submission.sampleNotes.Apart s := Submission.Request.apart_of_unlinked hunlinked (by decide +kernel)
  have hwritable : Submission.sampleNotes.Writable s :=
    Submission.Request.writable_of_unlinked hunlinked (by decide +kernel) (by decide +kernel)
  have hnames : ∀ e, Submission.sampleNotes.NamesClone s e := fun e c _ _ _ hstub => nomatch hstub
  have hrooted : s.Rooted clone ["w", "c"] :=
    ⟨hunlinked.ready.sound, Session.leadsTo_iff_find.2 hclone, fun _ => hunlinked.ne_link _⟩
  obtain ⟨l', hl, hstudent, hpackaged, -, hjoined, -⟩ := student_in_layout rfl hrooted hload hgoes
  obtain rfl : l' = l := Except.ok.inj (hl.symm.trans hlayout)
  have hcovers := hstudent (clone.append ["pom.xml"]) ["pom.xml"] false (.inl ⟨rfl, by decide⟩) hclassify
  obtain ⟨parts, -⟩ := Submission.pack_written hrequest hwritable hnames (perform_eq_of_fst hpack)
  obtain ⟨hproject, hecosystem, hreceived, -⟩ := parts.eq_of_receive hreceive
  have hconfig := Except.ok.inj (parts.load_eq.symm.trans hload)
  refine ⟨hlayout, hcovers, hjoined.nodup, parts, hpackaged s _ parts hrequest hecosystem hconfig _ _ hcovers ?_⟩
  rw [hproject, hreceived]
  exact hfile

/-- A source that is written with a detour is the student's as well, but its own names begin with no student part. -/
theorem sampleDetour_outside :
    let s : Session := { sampleTree with files := sampleTree.files.put ["w", "p", "x"] .directory }
    let project : Path := ⟨.relative, ["p"]⟩
    let rel := ["x", "..", "src", "gen", "A"]
    let l : PackagingLayout := ⟨[⟨.relative, ["src"]⟩], [⟨.relative, ["test"]⟩]⟩
    s.files.links = 0 ∧ ((Config.load project).perform s).1 = .ok {} ∧ ((Ecosystem.ant.layout project).perform s).1 = .ok l ∧
      ((sampleAnt.classify (project.append rel) project none false).perform s).1 = .ok .studentFile ∧
      ¬ Config.Covers l.studentPaths rel := by decide +kernel

end Policy

end Handout

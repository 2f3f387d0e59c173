import Handout.Proofs.Submission.Provenance

/-!
# What comes from the instructor

A file of the exercise is in the package as it is in the clone (`exercise_of_clone`) when nothing of the submission is
copied over it.  The style decides on this.  Maven copies every part of the exercise to its own place, after all of the
submission but the extra student files.  The common style copies each part under its last name, so that only parts at
the top of the project reach their own place.  Make knows the tests only; other parts of the exercise stay below the
student's sources.
-/

namespace Handout.Submission

open Handout.Action Session

variable {s t u : Session} {p clone received : Path} {place names : List String} {request : Request}
  {first rest : List Layer} {content : Content} {data : Bytes} {executable : Bool}

/-! ### Layers that agree with a project -/

/-- A layer agrees with a project if it has the project's file wherever it reaches. -/
def AgreesWith (project : List String → Option (Bytes × Bool)) (names : List String) (l : Layer) : Prop :=
  l.place <+: names → l.file? names = project names

/-- Where the last layers agree with a project and reach the place of one of its files, the file is there. -/
theorem file_of_agreeing {project : List String → Option (Bytes × Bool)} (h : Stacked (first ++ rest) content)
    (hclosed : ∀ l ∈ rest, l.offers.Closed) (hsome : ∃ l ∈ rest, l.place <+: names)
    (hagree : ∀ l ∈ rest, AgreesWith project names l) (hfile : project names = some (data, executable))
    (hdir : content names ≠ some .directory) : content names = some (.file data executable) :=
  h.file_of_last hclosed hsome (fun l hl hplace => (hagree l hl hplace).trans hfile) hdir

theorem agreesWith_layer (hplace : ∀ c ∈ place, IsPlain c) : AgreesWith (u.file? p) names (layer u (p.append place) place) :=
  fun h => (file?_layer hplace names).trans (if_pos h)

theorem agreesWith_layerIf (hplace : ∀ c ∈ place, IsPlain c) :
    ∀ l ∈ layerIf u (p.append place) place, AgreesWith (u.file? p) names l := by
  intro l hl
  rw [eq_of_mem_layerIf hl]
  exact agreesWith_layer hplace

/-- The layer of a part is there if the project has a file in this part. -/
theorem exists_layerIf (hfile : u.file? p names ≠ none) (hplace : place <+: names) :
    ∃ l ∈ layerIf u (p.append place) place, l.place <+: names := by
  obtain ⟨more, rfl⟩ := hplace
  have hplain := Session.plain_of_file? hfile
  have hsome : (u.node? true (p.append place)).isSome := by
    rw [Option.isSome_iff_ne_none]
    intro hnone
    rw [← Session.file?_append (List.forall_mem_append.1 hplain).1] at hfile
    exact hfile (Session.file?_of_none hnone more)
  refine ⟨layer u (p.append place) place, ?_, List.prefix_append _ _⟩
  unfold layerIf
  rw [if_pos hsome]
  exact List.mem_singleton_self _

theorem agreesWith_overlayLayers {ps : List Path} (hps : ∀ q ∈ ps, Config.IsInside q) :
    ∀ l ∈ overlayLayers u p ps, AgreesWith (u.file? p) names l := by
  intro l hl
  obtain ⟨q, hq, rfl⟩ := exists_of_mem_overlayLayers hl
  rw [join_of_inside (hps q hq)]
  exact agreesWith_layer (plain_of_isName (hps q hq).2)

/-- A layer that does not reach to a place agrees with everything there. -/
theorem agreesWith_overlayLayers_of_not {project : List String → Option (Bytes × Bool)} {ps : List Path}
    (hps : ∀ q ∈ ps, ¬ q.parts <+: names) : ∀ l ∈ overlayLayers u p ps, AgreesWith project names l := by
  intro l hl hplace
  obtain ⟨q, hq, rfl⟩ := exists_of_mem_overlayLayers hl
  exact absurd hplace (hps q hq)

theorem agreesWith_gatherLayers {ps : List Path} (hps : ∀ q ∈ ps, Config.IsInside q)
    (hplace : ∀ q ∈ ps, (Path.ofString (p.join q).name).parts <+: names → (Path.ofString (p.join q).name).parts = q.parts) :
    ∀ l ∈ gatherLayers u p ps, AgreesWith (u.file? p) names l := by
  intro l hl hreach
  obtain ⟨q, hq, rfl⟩ := exists_of_mem_gatherLayers hl
  have hown := hplace q hq hreach
  rw [hown] at hreach
  rw [hown, join_of_inside (hps q hq)]
  exact agreesWith_layer (plain_of_isName (hps q hq).2) hreach

theorem agreesWith_topLayers (hu : u.Sound) (hlisted : Layer.never ∉ topLayers u p) :
    ∀ l ∈ topLayers u p, AgreesWith (u.file? p) names l := by
  intro l hl
  obtain ⟨c, hc, rfl, -⟩ := exists_of_mem_topLayers hu hlisted hl
  exact agreesWith_layer (by simpa using hc)

/-- A file at the top of a directory that was listed has a layer. -/
theorem exists_topLayers (hu : u.Sound) (hlisted : Layer.never ∉ topLayers u p) (hlength : names.length = 1)
    (hfile : u.file? p names ≠ none) : ∃ l ∈ topLayers u p, l.place <+: names := by
  obtain ⟨c, rfl⟩ := List.length_eq_one_iff.1 hlength
  have hplain := Session.plain_of_file? hfile
  obtain ⟨⟨data, executable⟩, hsome⟩ := Option.ne_none_iff_exists'.1 hfile
  have hnode := (Session.file?_eq_some hplain).1 hsome
  exact ⟨_, layer_mem_topLayers hu hlisted (List.forall_mem_singleton.1 hplain) hnode, List.prefix_refl _⟩

/-! ### The parts of the exercise -/

/-- Where a merge puts a part of the exercise, if it does. -/
def exercisePlace? (style : PackagingStyle) (clone part : Path) : Option (List String) :=
  match style with
  | .maven => some part.parts
  | .make => if part.parts = ["test"] then some part.parts else none
  | .generic => some (Path.ofString (clone.join part).name).parts

/-- The exercise decides on a place: a part of it that reaches there is put to its own place, and no part of it is put
there from another place. -/
structure Decides (style : PackagingStyle) (clone : Path) (layout : PackagingLayout) (names : List String) : Prop where
  there : ∃ q ∈ layout.exercisePaths, q.parts <+: names ∧ exercisePlace? style clone q = some q.parts
  only : ∀ q ∈ layout.exercisePaths, ∀ place ∈ exercisePlace? style clone q, place <+: names → place = q.parts

/-- In the style of Maven, the exercise decides on all of its parts. -/
theorem decides_maven {layout : PackagingLayout} {q : Path} (hq : q ∈ layout.exercisePaths) (h : q.parts <+: names) :
    Decides .maven clone layout names :=
  ⟨⟨q, hq, h, rfl⟩, fun _ _ _ hplace _ => (Option.some.inj hplace).symm⟩

/-- In the style of make, the tests are the only part of the exercise that is put to its own place. -/
private theorem tests_of_exercisePlace {q : Path} (h : exercisePlace? .make clone q = some q.parts) : q.parts = ["test"] := by
  by_contra hn
  unfold exercisePlace? at h
  dsimp only at h
  rw [if_neg hn] at h
  cases h

/-- In the style of make, no student path reaches to a test unless it is an extra one. -/
private theorem apart_of_tests {c : Config} (htest : ["test"] <+: names)
    (hstudent : ∀ q ∈ c.extraStudentFiles, ¬ q.parts <+: names) :
    ∀ q ∈ (Ecosystem.make.layoutOf c).studentPaths, ¬ q.parts <+: names := by
  intro q hq hreach
  rcases Ecosystem.mem_studentPaths.1 hq with hq | hq
  · have hdefault : ∀ q ∈ Ecosystem.make.defaultStudentPaths, q = ⟨.relative, ["src"]⟩ := by decide +kernel
    rw [hdefault q hq] at hreach
    exact (List.prefix_or_prefix_of_prefix htest hreach).elim (by decide) (by decide)
  · exact hstudent q hq hreach

/-- A merge ends with layers that agree with the clone, on places at the top and on those on which the exercise
decides. -/
theorem mergeLayers_agree {e : Ecosystem} {c : Config} (hu : u.Sound) (hc : c.Inside)
    (hlisted : Layer.never ∉ mergeLayers u e.style received clone clone (e.layoutOf c))
    (hstudent : ∀ q ∈ c.extraStudentFiles, ¬ q.parts <+: names) (hfile : u.file? clone names ≠ none)
    (hplace : names.length = 1 ∨ Decides e.style clone (e.layoutOf c) names) :
    ∃ first rest, mergeLayers u e.style received clone clone (e.layoutOf c) = first ++ rest ∧
      (∃ l ∈ rest, l.place <+: names) ∧ ∀ l ∈ rest, AgreesWith (u.file? clone) names l := by
  obtain ⟨first, hends⟩ := mergeLayers_top u e.style received clone clone (e.layoutOf c)
  rw [show topProject e.style clone clone = clone from ite_self _] at hends
  have hinside : ∀ q ∈ (e.layoutOf c).exercisePaths, Config.IsInside q := fun q hq =>
    inside_layout hc e q (List.mem_append_right _ hq)
  have htop : Layer.never ∉ topLayers u clone := by
    rw [hends] at hlisted
    exact fun h => hlisted (List.mem_append_right _ h)
  have hagree : ∀ l ∈ topLayers u clone, AgreesWith (u.file? clone) names l := agreesWith_topLayers hu htop
  rcases hplace with hlength | hdecides
  · exact ⟨first, topLayers u clone, hends, exists_topLayers hu htop hlength hfile, hagree⟩
  · obtain ⟨⟨q, hq, hreach, hown⟩, honly⟩ := hdecides
    cases hstyle : e.style with
    | maven =>
      refine ⟨_, overlayLayers u clone (e.layoutOf c).exercisePaths ++ topLayers u clone, List.append_assoc .., ?_,
        List.forall_mem_append.2 ⟨agreesWith_overlayLayers hinside, hagree⟩⟩
      obtain ⟨l, hl, hlplace⟩ := exists_layerIf hfile hreach
      refine ⟨l, List.mem_append_left _ (List.mem_flatMap.2 ⟨q, hq, ?_⟩), hlplace⟩
      rwa [join_of_inside (hinside q hq)]
    | make =>
      rw [hstyle] at hown
      rw [tests_of_exercisePlace hown] at hreach
      obtain rfl := Ecosystem.style_eq_make_iff.1 hstyle
      have hlayers : mergeLayers u .make received clone clone (Ecosystem.make.layoutOf c) =
          layerIf u (clone.append ["src"]) ["src"] ++ (layerIf u (clone.append ["test"]) ["test"] ++
            overlayLayers u received (Ecosystem.make.layoutOf c).studentPaths ++ topLayers u clone) := by
        simp [mergeLayers, Path.child_eq_append]
      obtain ⟨l, hl, hlplace⟩ := exists_layerIf hfile hreach
      refine ⟨_, _, hlayers, ⟨l, by simp [hl], hlplace⟩, ?_⟩
      refine List.forall_mem_append.2 ⟨List.forall_mem_append.2 ⟨agreesWith_layerIf (by decide), ?_⟩, hagree⟩
      exact agreesWith_overlayLayers_of_not (apart_of_tests hreach hstudent)
    | generic =>
      refine ⟨_, gatherLayers u clone (e.layoutOf c).exercisePaths ++ topLayers u clone, List.append_assoc .., ?_,
        List.forall_mem_append.2 ⟨agreesWith_gatherLayers hinside fun q hq => honly q hq _ (by rw [hstyle]; rfl), hagree⟩⟩
      rw [hstyle] at hown
      obtain ⟨l, hl, hlplace⟩ := exists_layerIf hfile hreach
      refine ⟨l, List.mem_append_left _ (List.mem_flatMap.2 ⟨q, hq, ?_⟩), hlplace⟩
      rw [Option.some.inj hown]
      rwa [join_of_inside (hinside q hq)]

/-! ### Files of the exercise -/

/-- A file of the exercise is packaged as it is in the clone, unless it meets a directory, where no extra student file
is copied over it and the exercise decides on its place or it is at the top of the project. -/
theorem exercise_of_clone {c : Config} {q : Path} (hrequest : request.Apart s) (hwritable : request.Writable s)
    (hclone : ∀ e, request.NamesClone s e) (hstub : request.stub = none)
    (hload : ((Config.load request.clone).perform s).1 = .ok c) (hq : q ∈ c.extraExerciseFiles) (hunder : q.parts <+: names)
    (hfile : s.file? request.clone names = some (data, executable)) (hstudent : ∀ r ∈ c.extraStudentFiles, ¬ r.parts <+: names)
    (h : (pack request).perform s = (.ok (), t)) :
    ∃ parts : Packed s request, request.Written s t parts.content ∧
      (parts.ecosystem = .maven ∨ names.length = 1 ∨
          Decides parts.ecosystem.style request.clone (parts.ecosystem.layoutOf c) names →
        parts.content names ≠ some .directory → parts.content names = some (.file data executable)) := by
  obtain ⟨parts, hwritten⟩ := pack_written hrequest hwritable hclone h
  obtain rfl := Except.ok.inj (hload.symm.trans parts.load_eq)
  refine ⟨parts, hwritten, fun hplace hdir => ?_⟩
  have hplace : names.length = 1 ∨ Decides parts.ecosystem.style request.clone (parts.ecosystem.layoutOf parts.config) names := by
    rcases hplace with hmaven | hplace
    · rw [hmaven]
      refine .inr (decides_maven (q := q) ?_ hunder)
      unfold Ecosystem.layoutOf
      simp [hq]
    · exact hplace
  obtain ⟨hsound, hoffers, -⟩ := parts.offers_eq hrequest
  have htests := (parts.tests_eq hstub).1
  have hsame : (withPackage s.scratch parts.fetched).file? request.clone names = some (data, executable) := by
    unfold Session.file? at hfile ⊢
    rwa [hoffers]
  have hstacked := parts.stacked
  have hclosed : ∀ l ∈ packageLayers (withPackage s.scratch parts.fetched) request.params request.clone parts.ecosystem
    parts.project parts.tests parts.config, l.offers.Closed := closed_packageLayers
  have hnever := hstacked.never_not_mem
  rw [htests] at hstacked hnever hclosed
  unfold packageLayers at hstacked hnever hclosed
  obtain ⟨first, rest, hlayers, ⟨l, hl, hreach⟩, hagree⟩ := mergeLayers_agree hsound
    (Config.inside_of_load parts.load_eq)
    (fun hmem => hnever (List.mem_append_left _ (List.mem_append_right _ hmem))) hstudent
    (by rw [hsame]; exact Option.some_ne_none _) hplace
  rw [hlayers, ← List.append_assoc, List.append_assoc] at hstacked hclosed
  have hlast : ∀ l ∈ overlayLayers (withPackage s.scratch parts.fetched) parts.project
      (Path.sort parts.config.extraStudentFiles),
      AgreesWith ((withPackage s.scratch parts.fetched).file? request.clone) names l :=
    agreesWith_overlayLayers_of_not fun r hr => hstudent r ((sortBy_perm _ _).mem_iff.1 hr)
  exact file_of_agreeing hstacked (fun l hl => hclosed l (List.mem_append_right _ hl))
    ⟨l, List.mem_append_left _ hl, hreach⟩ (List.forall_mem_append.2 ⟨hagree, hlast⟩) hsame hdir

/-- A session in a directory `w` that holds a submission and a clone which disagree on `src/main/K`, a file of the
exercise. -/
def sampleKeySession (mark : String) : Session where
  files := ⟨[(["w"], .directory), (["w", "c"], .directory), (["w", "c", mark], .file [] false),
    (["w", "c", Config.fileName], .file (Bytes.ofString "extra_exercise_files: [src/main/K]") false),
    (["w", "c", "src"], .directory), (["w", "c", "src", "main"], .directory),
    (["w", "c", "src", "main", "K"], .file [2] false),
    (["w", "s.zip"], .file (Archive.encode .zip [⟨mark, .file [] false⟩, ⟨"src/main/K", .file [1] false⟩]) false)]⟩
  workingDir := ["w"]
  scratch := ["t"]

/-- The packaging of the submission. -/
def sampleKey : Request :=
  { submission := ⟨.relative, ["s.zip"]⟩, output := ⟨.relative, ["o"]⟩, clone := ⟨.relative, ["c"]⟩, asZip := true }

/-- The sample can be packaged as far as paths and the configuration are concerned. -/
private theorem sampleKey_suits (hs : ∃ mark ∈ ["pom.xml", "Makefile"], s = sampleKeySession mark) :
    sampleKey.Apart s ∧ sampleKey.Writable s ∧ (∀ e, sampleKey.NamesClone s e) ∧
      ((Config.load sampleKey.clone).perform s).1 = .ok { extraExerciseFiles := [⟨.relative, ["src", "main", "K"]⟩] } ∧
      s.file? sampleKey.clone ["src", "main", "K"] = some ([2], false) := by
  have hrun : ∀ mark ∈ ["pom.xml", "Makefile"], let s := sampleKeySession mark
      s.Unlinked ∧
        ((Config.load sampleKey.clone).perform s).1 = .ok { extraExerciseFiles := [⟨.relative, ["src", "main", "K"]⟩] } ∧
        s.node? true (sampleKey.clone.append ["src", "main", "K"]) = some (.file [2] false) := by decide +kernel
  obtain ⟨mark, hmark, rfl⟩ := hs
  obtain ⟨hunlinked, hload, hfile⟩ := hrun mark hmark
  refine ⟨Request.apart_of_unlinked hunlinked (by decide +kernel),
    Request.writable_of_unlinked hunlinked (by decide +kernel) (by decide +kernel), fun e c hc _ hhere => ?_, hload, (Session.file?_eq_some (by decide)).2 hfile⟩
  obtain rfl := Except.ok.inj (hload.symm.trans hc)
  cases e <;> exact absurd hhere (by decide +kernel)

/-- In the style of Maven, the file comes from the clone. -/
theorem sampleKey_maven :
    let s := sampleKeySession "pom.xml"
    ∃ parts : Packed s sampleKey, sampleKey.Written s ((pack sampleKey).perform s).2 parts.content ∧
      parts.content ["src", "main", "K"] = some (.file [2] false) := by
  intro s
  obtain ⟨hrequest, hwritable, hclone, hload, hfile⟩ := sampleKey_suits (s := s) ⟨"pom.xml", by decide, rfl⟩
  have hreceive : ((receive sampleKey).perform s).1 = .ok (Location.path ["t", "received"], .maven) := by decide +kernel
  have hdir : ((furnish sampleKey s.scratch.path (Location.path ["t", "received"], .maven)).perform
      ((receive sampleKey).perform s).2).2.files.content (s.scratch ++ ["dest"]) ["src", "main", "K"] ≠
        some .directory := by decide +kernel
  have hok : ((pack sampleKey).perform s).1 = .ok () := by decide +kernel
  clear_value s
  obtain ⟨parts, hwritten, hcontent⟩ := exercise_of_clone (q := ⟨.relative, ["src", "main", "K"]⟩) hrequest hwritable hclone
    rfl hload (by decide) (List.prefix_refl _) hfile (fun _ h => absurd h List.not_mem_nil) (perform_eq_of_fst hok)
  obtain ⟨-, hecosystem, -, hfurnished⟩ := parts.eq_of_receive hreceive
  refine ⟨parts, hwritten, hcontent (.inl hecosystem) fun h => hdir ?_⟩
  rw [← hfurnished]
  exact h

/-- In the style of make, it comes from the submission, although it is configured to be a file of the exercise. -/
theorem sampleKey_make :
    let s := sampleKeySession "Makefile"
    ∃ parts : Packed s sampleKey, sampleKey.Written s ((pack sampleKey).perform s).2 parts.content ∧
      parts.config.extraExerciseFiles = [⟨.relative, ["src", "main", "K"]⟩] ∧
      s.file? sampleKey.clone ["src", "main", "K"] = some ([2], false) ∧
      parts.content ["src", "main", "K"] = some (.file [1] false) := by
  intro s
  obtain ⟨hrequest, hwritable, hclone, hload, hfile⟩ := sampleKey_suits (s := s) ⟨"Makefile", by decide, rfl⟩
  have hreceive : ((receive sampleKey).perform s).1 = .ok (Location.path ["t", "received"], .make) := by decide +kernel
  have hfurnish : ((furnish sampleKey s.scratch.path (Location.path ["t", "received"], .make)).perform
      ((receive sampleKey).perform s).2).2.files.content (s.scratch ++ ["dest"]) ["src", "main", "K"] =
        some (.file [1] false) := by
    decide +kernel
  have hok : ((pack sampleKey).perform s).1 = .ok () := by decide +kernel
  clear_value s
  obtain ⟨parts, hwritten⟩ := pack_written hrequest hwritable hclone (perform_eq_of_fst hok)
  obtain ⟨-, -, -, hfurnished⟩ := parts.eq_of_receive hreceive
  refine ⟨parts, hwritten, ?_, hfile, ?_⟩
  · obtain hconfig := Except.ok.inj (hload.symm.trans parts.load_eq)
    exact (congrArg Config.extraExerciseFiles hconfig).symm
  · unfold Packed.content
    rw [hfurnished]
    exact hfurnish

end Handout.Submission

import Handout.Proofs.Submission.Instructor

/-!
# What becomes of the parameters

The parameters are written to the package before anything else, and every later copy may put another file in their
place.  The file that is delivered is the one that the last such copy brings, and the parameters only if there is none
(`Packed.params_file`).  No copy brings one if there is no file of this name at the top of the project whose top files
are copied, and the configuration does not name such a file or the whole project (`Packed.lastFile?_copies`).
-/

namespace Handout

open Handout.Action Session

variable {s t u : Session} {p : Path} {names place : List String} {l : Layer} {ls : List Layer}

/-- A path that leads to a directory offers no file. -/
theorem Session.LeadsTo.file?_nil {loc : Location} (h : s.LeadsTo p loc) : s.file? p [] = none := by
  by_contra hn
  obtain ⟨⟨data, executable⟩, hfile⟩ := Option.ne_none_iff_exists'.1 hn
  have hnode := (file?_eq_some (List.forall_mem_nil _)).1 hfile
  rw [Path.append_nil, Session.node?] at hnode
  split at hnode
  · cases hnode
  · rw [leadsTo_iff_find.1 h] at hnode
    cases hnode

namespace Submission

variable {request : Request} {received clone tests : Path} {e : Ecosystem} {c : Config}

/-! ### What is laid over the whole package -/

/-- A directory that was listed is no file. -/
theorem file?_nil_of_listed (hlisted : Layer.never ∉ topLayers u p) : u.file? p [] = none := by
  unfold topLayers at hlisted
  cases hfiles : ((filesIn p).perform u).1 with
  | error e =>
    rw [hfiles] at hlisted
    exact absurd (List.mem_singleton_self _) hlisted
  | ok files =>
    obtain ⟨found, hfound, -⟩ := mem_filesIn hfiles
    obtain ⟨loc, hfind, -⟩ := names?_eq_ok hfound
    exact (leadsTo_iff_find.2 hfind).file?_nil

/-- No file is laid over the whole package. -/
theorem mergeLayers_base {layout : PackagingLayout} {style : PackagingStyle} (hu : u.Sound)
    (hinside : ∀ q ∈ layout.studentPaths ++ layout.exercisePaths, Config.IsInside q)
    (hlisted : Layer.never ∉ topLayers u (topProject style clone tests)) (hreceived : u.file? received [] = none)
    (htests : u.file? tests [] = none) :
    ∀ l ∈ mergeLayers u style received clone tests layout, l.place = [] →
      ∀ data executable, l.offers [] ≠ some (.file data executable) := by
  have hwhole : ∀ {project q : Path} {l : Layer}, u.file? project [] = none → Config.IsInside q → IsPart u project q l →
      l.place = [] → ∀ data executable, l.offers [] ≠ some (.file data executable) := by
    intro project q l hproject hq hpart hplace data executable hoffer
    rw [hpart.offers_of_whole hq hplace] at hoffer
    unfold Session.file? at hproject
    rw [hoffer] at hproject
    cases hproject
  intro l hl hplace
  rcases cases_of_mem_mergeLayers hl with ⟨part, hfixed, rfl⟩ | ⟨q, hq, hpart⟩ | ⟨-, q, hq, hpart⟩ | htop
  · have hmem := fixedParts_place hfixed
    rw [show part.2 = [] from hplace] at hmem
    exact absurd hmem (by decide)
  · exact hwhole hreceived (hinside q (List.mem_append_left _ hq)) hpart hplace
  · exact hwhole htests (hinside q (List.mem_append_right _ hq)) hpart hplace
  · obtain ⟨name, -, rfl, -⟩ := exists_of_mem_topLayers hu hlisted htop
    cases hplace

/-! ### The file of parameters -/

/-- The copies that follow when the parameters have been written. -/
def Packed.copies (parts : Packed s request) : List Layer :=
  let u := withPackage s.scratch parts.fetched
  environmentLayers u parts.project request.clone environmentNames
    ++ mergeLayers u parts.ecosystem.style parts.project request.clone parts.tests (parts.ecosystem.layoutOf parts.config)
    ++ overlayLayers u parts.project (Path.sort parts.config.extraStudentFiles)

/-- The files of the project whose top files are copied. -/
def Packed.topFile? (parts : Packed s request) : List String → Option (Bytes × Bool) :=
  if parts.ecosystem = .make then parts.fetched.file? parts.tests else s.file? request.clone

theorem Packed.stacked_copies (parts : Packed s request) :
    Stacked ([paramsLayer request.params] ++ parts.copies) parts.content := by
  have hstacked := parts.stacked
  unfold packageLayers at hstacked
  rw [List.cons_append, List.cons_append] at hstacked
  exact hstacked

/-- While the package is filled, the received project and the tests are directories, and the top files were listed. -/
theorem Packed.roots (parts : Packed s request) (hrequest : request.Apart s) :
    let a := withPackage s.scratch parts.fetched
    Layer.never ∉ topLayers a (topProject parts.ecosystem.style request.clone parts.tests) ∧
      a.file? parts.project [] = none ∧ a.file? parts.tests [] = none := by
  intro a
  have hu := received_of_perform hrequest.ready parts.receive_eq
  obtain ⟨-, hmade, htests⟩ := prepared_of_perform hrequest.ready hrequest.unlocked hrequest.stub hu parts.fetch_eq
  have hafter := hmade.holding_left hu hrequest.unlocked
  have hlisted : Layer.never ∉ topLayers a (topProject parts.ecosystem.style request.clone parts.tests) := by
    obtain ⟨first, hfirst⟩ := mergeLayers_top a parts.ecosystem.style parts.project request.clone parts.tests
      (parts.ecosystem.layoutOf parts.config)
    intro hmem
    refine parts.stacked_copies.never_not_mem (List.mem_append_right _ ?_)
    unfold Packed.copies
    dsimp only
    rw [hfirst]
    simp [hmem]
  refine ⟨hlisted, ?_, ?_⟩
  · obtain ⟨rel, hproject, hd⟩ := hu.project_path
    rw [← hafter.same] at hd
    rw [hproject]
    exact (leadsTo_path hmade.left.sound hd).file?_nil
  · unfold HoldsTests at htests
    cases hstub : request.stub with
    | some archive =>
      rw [hstub] at htests
      obtain ⟨rel, hpath, hd⟩ := htests
      rw [hpath]
      exact (leadsTo_path hmade.left.sound hd).file?_nil
    | none =>
      rw [hstub] at htests
      dsimp only at htests
      have hclone := file?_nil_of_listed hlisted
      unfold topProject at hclone
      rw [htests] at hclone ⊢
      rwa [ite_self] at hclone

/-- While the package is filled, the files of the clone and of the tests are as they were. -/
theorem Packed.file?_eq (parts : Packed s request) (hrequest : request.Apart s) :
    (withPackage s.scratch parts.fetched).file? request.clone = s.file? request.clone ∧
      (withPackage s.scratch parts.fetched).file? parts.tests = parts.fetched.file? parts.tests := by
  obtain ⟨-, hclone, -, htests, -⟩ := parts.offers_eq hrequest
  unfold Session.file?
  rw [hclone, htests]
  exact ⟨rfl, rfl⟩

theorem Packed.topFile?_eq (parts : Packed s request) (hrequest : request.Apart s) :
    (withPackage s.scratch parts.fetched).file? (topProject parts.ecosystem.style request.clone parts.tests) =
      parts.topFile? := by
  obtain ⟨hclone, htests⟩ := parts.file?_eq hrequest
  unfold topProject Packed.topFile?
  by_cases hmake : parts.ecosystem = .make
  · rw [if_pos (Ecosystem.style_eq_make_iff.2 hmake), if_pos hmake, htests]
  · rw [if_neg (mt Ecosystem.style_eq_make_iff.1 hmake), if_neg hmake, hclone]

/-- The file in the place of the parameters is that of the last copy that has one there, and else that of the
parameters. -/
theorem Packed.params_file (parts : Packed s request) (hrequest : request.Apart s) :
    parts.content [paramsFileName] = match lastFile? parts.copies [paramsFileName] with
      | some (data, executable) => some (.file data executable)
      | none => some (.file request.params.content false) := by
  obtain ⟨hlisted, hproject, htests⟩ := parts.roots hrequest
  have hsound := (parts.offers_eq hrequest).1
  have hinside := inside_layout (Config.inside_of_load parts.load_eq) parts.ecosystem
  refine parts.stacked_copies.top_file (fun old hold => ?_) fun l hl hplace data executable hoffer => ?_
  · obtain ⟨bare, hbare, hfree, rfl⟩ := (show Stacked ([] ++ [_]) old from hold).before
    refine Layer.onto_of_file (closed_paramsLayer _) hfree rfl ?_
    rw [hbare.eq_bare]
    exact nofun
  · unfold Packed.copies at hl
    dsimp only at hl
    rcases List.mem_append.1 hl with hl | hl
    · rcases List.mem_append.1 hl with hl | hl
      · obtain ⟨name, -, hname⟩ := environment_place hl
        rw [hname] at hplace
        cases hplace
      · exact mergeLayers_base hsound hinside hlisted hproject htests l hl hplace data executable hoffer
    · obtain ⟨q, hq, hl⟩ := exists_of_mem_overlayLayers hl
      have hq := hinside q (List.mem_append_left _ (mem_studentPaths hq))
      rw [IsPart.offers_of_whole (.inl hl) hq hplace] at hoffer
      unfold Session.file? at hproject
      rw [hoffer] at hproject
      cases hproject

/-- No copy brings a file to the place of the parameters if there is none at the top, and the configuration names
neither one nor the whole project. -/
theorem Packed.lastFile?_copies (parts : Packed s request) (hrequest : request.Apart s)
    (htop : parts.topFile? [paramsFileName] = none)
    (hextra : ∀ q ∈ parts.config.extraStudentFiles ++ parts.config.extraExerciseFiles,
      q.parts ≠ [] ∧ q.name ≠ paramsFileName) : lastFile? parts.copies [paramsFileName] = none := by
  obtain ⟨hlisted, -, -⟩ := parts.roots hrequest
  have hsound := (parts.offers_eq hrequest).1
  have hinside := inside_layout (Config.inside_of_load parts.load_eq) parts.ecosystem
  have hdefault : ∀ q ∈ parts.ecosystem.defaultStudentPaths ++ parts.ecosystem.defaultExercisePaths,
      q.parts ≠ [] ∧ q.name ≠ paramsFileName := by
    cases parts.ecosystem <;> decide +kernel
  have hlayout : ∀ q ∈ (parts.ecosystem.layoutOf parts.config).studentPaths ++
      (parts.ecosystem.layoutOf parts.config).exercisePaths, q.parts ≠ [] ∧ q.name ≠ paramsFileName :=
    Ecosystem.forall_mem_layoutOf hdefault hextra
  have hpart : ∀ {project q : Path} {l : Layer}, IsPart (withPackage s.scratch parts.fetched) project q l →
      q ∈ (parts.ecosystem.layoutOf parts.config).studentPaths ++ (parts.ecosystem.layoutOf parts.config).exercisePaths →
      l.file? [paramsFileName] = none := fun h hq =>
    Layer.file?_eq_none (h.not_prefix (hinside _ hq) (hlayout _ hq).1 (hlayout _ hq).2)
  have hlast := lastFile?_topLayers hsound hlisted [paramsFileName]
  rw [parts.topFile?_eq hrequest, show atTop _ [paramsFileName] = _ from if_pos rfl, htop] at hlast
  refine lastFile?_eq_none fun l hl => ?_
  unfold Packed.copies at hl
  dsimp only at hl
  rcases List.mem_append.1 hl with hl | hl
  · rcases List.mem_append.1 hl with hl | hl
    · obtain ⟨name, hname, hplace⟩ := environment_place hl
      refine Layer.file?_eq_none ?_
      rw [hplace]
      exact (by decide : ∀ name ∈ environmentNames, ¬ [name] <+: [paramsFileName]) name hname
    · rcases cases_of_mem_mergeLayers hl with ⟨part, hfixed, rfl⟩ | ⟨q, hq, hl⟩ | ⟨-, q, hq, hl⟩ | hl
      · have hplaces : ∀ place ∈ [["pom.xml"], ["src", "main"], ["src", "test"], ["src"], ["test"], ["lib"]],
            ¬ place <+: [paramsFileName] := by decide
        exact Layer.file?_eq_none (hplaces _ (fixedParts_place hfixed))
      · exact hpart hl (List.mem_append_left _ hq)
      · exact hpart hl (List.mem_append_right _ hq)
      · exact List.findSome?_eq_none_iff.1 hlast l (List.mem_reverse.2 hl)
  · obtain ⟨q, hq, hl⟩ := exists_of_mem_overlayLayers hl
    exact hpart (.inl hl) (List.mem_append_left _ (mem_studentPaths hq))

/-- The package has a file of parameters at its top: the one that the last of the copies brings which follow when the
parameters have been written, and if none does, one with the lines of the parameters, each with its end.  So it has
these lines where there is no such file at the top of the project whose top files are copied and the configuration
names neither one nor the whole project. -/
theorem params_of_package (hrequest : request.Apart s) (hwritable : request.Writable s)
    (hclone : ∀ e, request.NamesClone s e) (h : (pack request).perform s = (.ok (), t)) :
    ∃ parts : Packed s request, request.Written s t parts.content ∧
      let own := Node.file (Bytes.ofString (String.join (request.params.lines.map fun l => l ++ "\n"))) false
      (parts.content [paramsFileName] = match lastFile? parts.copies [paramsFileName] with
        | some (data, executable) => some (.file data executable)
        | none => some own) ∧
      (parts.topFile? [paramsFileName] = none →
        (∀ q ∈ parts.config.extraStudentFiles ++ parts.config.extraExerciseFiles, q.parts ≠ [] ∧ q.name ≠ paramsFileName) →
        parts.content [paramsFileName] = some own) := by
  obtain ⟨parts, hwritten⟩ := pack_written hrequest hwritable hclone h
  refine ⟨parts, hwritten, parts.params_file hrequest, fun htop hextra => ?_⟩
  rw [parts.params_file hrequest, parts.lastFile?_copies hrequest htop hextra]
  rfl

/-- A session in a directory `w` that holds a submission and a clone, which may have more files. -/
def sampleParamsSession (more : List (Location × Node)) : Session where
  files := ⟨[(["w"], .directory), (["w", "c"], .directory), (["w", "c", "pom.xml"], .file [] false)] ++ more ++
    [(["w", "s.zip"], .file (Archive.encode .zip [⟨"pom.xml", .file [] false⟩, ⟨"src/main/A", .file [1] false⟩]) false)]⟩
  workingDir := ["w"]
  scratch := ["t"]

/-- The packaging of the submission with a parameter. -/
def sampleParams : Request :=
  { submission := ⟨.relative, ["s.zip"]⟩, output := ⟨.relative, ["o"]⟩, clone := ⟨.relative, ["c"]⟩, asZip := true,
    params := Params.put {} "a" (.word "x") }

/-- The sample can be packaged as far as paths and the configuration are concerned. -/
private theorem sampleParams_suits
    (hs : ∃ more ∈ [[], [(["w", "c", paramsFileName], Node.file [120] false)]], s = sampleParamsSession more) :
    sampleParams.Apart s ∧ sampleParams.Writable s ∧ (∀ e, sampleParams.NamesClone s e) ∧
      ((Config.load sampleParams.clone).perform s).1 = .ok {} ∧
      ((receive sampleParams).perform s).1 = .ok (Location.path ["t", "received"], .maven) ∧
      ((pack sampleParams).perform s).1 = .ok () := by
  have hrun : ∀ more ∈ [[], [(["w", "c", paramsFileName], Node.file [120] false)]], let s := sampleParamsSession more
      s.Unlinked ∧ ((Config.load sampleParams.clone).perform s).1 = .ok {} ∧
        ((receive sampleParams).perform s).1 = .ok (Location.path ["t", "received"], .maven) ∧
        ((pack sampleParams).perform s).1 = .ok () := by decide +kernel
  obtain ⟨more, hmore, rfl⟩ := hs
  obtain ⟨hunlinked, hload, hreceive, hok⟩ := hrun more hmore
  refine ⟨Request.apart_of_unlinked hunlinked (by decide +kernel),
    Request.writable_of_unlinked hunlinked (by decide +kernel) (by decide +kernel), fun e c hc _ hhere => ?_, hload, hreceive, hok⟩
  obtain rfl := Except.ok.inj (hload.symm.trans hc)
  cases e <;> exact absurd hhere (by decide +kernel)

/-- The parameter of the sample is in the package. -/
theorem sampleParams_delivered :
    let s := sampleParamsSession []
    ∃ parts : Packed s sampleParams, sampleParams.Written s ((pack sampleParams).perform s).2 parts.content ∧
      parts.content [paramsFileName] = some (.file (Bytes.ofString "export a=x\n") false) := by
  intro s
  obtain ⟨hrequest, hwritable, hclone, hload, hreceive, hok⟩ := sampleParams_suits (s := s) ⟨_, by decide, rfl⟩
  have htop : s.file? sampleParams.clone [paramsFileName] = none := by decide +kernel
  clear_value s
  obtain ⟨parts, hwritten, -, hown⟩ := params_of_package hrequest hwritable hclone (perform_eq_of_fst hok)
  obtain ⟨-, hecosystem, -, -⟩ := parts.eq_of_receive hreceive
  obtain hconfig := Except.ok.inj (hload.symm.trans parts.load_eq)
  have hlines : Bytes.ofString (String.join (sampleParams.params.lines.map fun l => l ++ "\n")) =
      Bytes.ofString "export a=x\n" := by decide +kernel
  rw [hlines] at hown
  refine ⟨parts, hwritten, hown ?_ ?_⟩
  · unfold Packed.topFile?
    rwa [hecosystem, if_neg (by decide)]
  · rw [← hconfig]
    exact fun q hq => absurd hq List.not_mem_nil

/-- With a file of parameters in the clone, that file is in the package instead. -/
theorem sampleParams_lost :
    let s := sampleParamsSession [(["w", "c", paramsFileName], .file [120] false)]
    ∃ parts : Packed s sampleParams, sampleParams.Written s ((pack sampleParams).perform s).2 parts.content ∧
      parts.content [paramsFileName] = some (.file [120] false) := by
  intro s
  obtain ⟨hrequest, hwritable, hclone, -, hreceive, hok⟩ :=
    sampleParams_suits (s := s) ⟨_, by decide, rfl⟩
  have hfurnish : ((furnish sampleParams s.scratch.path (Location.path ["t", "received"], .maven)).perform
      ((receive sampleParams).perform s).2).2.files.content (s.scratch ++ ["dest"]) [paramsFileName] =
        some (.file [120] false) := by
    decide +kernel
  clear_value s
  obtain ⟨parts, hwritten⟩ := pack_written hrequest hwritable hclone (perform_eq_of_fst hok)
  obtain ⟨-, -, -, hfurnished⟩ := parts.eq_of_receive hreceive
  refine ⟨parts, hwritten, ?_⟩
  unfold Packed.content
  rw [hfurnished]
  exact hfurnish

end Submission

end Handout

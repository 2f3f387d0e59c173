import Handout.Proofs.Submission.Delivery

/-!
# Where the tests of a package come from

Below a default exercise path, every copy but those of the tests leaves the package alone (`mergeLayers_spares`), so the
files there are exactly those of one project: of the stub if there is one, and else of the clone.  The style of make
does not follow this; it takes the tests from the clone always.  A file at the top that has the name of an exercise
path goes there too, and is excepted.
-/

namespace Handout.Submission

open Handout.Action Session

variable {s t u : Session} {received clone tests : Path} {names : List String} {l : Layer} {request : Request}
  {e : Ecosystem} {q : Path}

/-- Neither of two places lies in the other. -/
def AreApart (place region : List String) : Prop := ¬ place <+: region ∧ ¬ region <+: place

instance (place region : List String) : Decidable (AreApart place region) := inferInstanceAs (Decidable (_ ∧ _))

theorem AreApart.spares {region : List String} (h : AreApart l.place region) : l.Spares region :=
  Layer.spares_of_apart h.1 h.2

theorem areApart_of_ne {a b : String} (h : a ≠ b) (rest : List String) : AreApart [a] (b :: rest) :=
  ⟨fun hprefix => h (List.cons_prefix_cons.1 hprefix).1, fun hprefix => h (List.cons_prefix_cons.1 hprefix).1.symm⟩

/-- The default parts of a project lie side by side. -/
private theorem defaults_apart (e : Ecosystem) : ∀ q ∈ e.defaultExercisePaths,
    (∀ place ∈ [paramsFileName] :: environmentNames.map fun name => [name], AreApart place q.parts) ∧
      (∀ r ∈ e.defaultStudentPaths, ∀ place ∈ [r.parts, [r.name]], AreApart place q.parts) ∧
      (∀ r ∈ e.defaultExercisePaths, ∀ place ∈ [r.parts, [r.name]],
        place = q.parts ∧ r = q ∨ AreApart place q.parts) := by
  cases e <;> decide +kernel

/-- The fixed parts that lie where tests do are tests. -/
private theorem fixed_apart (e : Ecosystem) : ∀ q ∈ e.defaultExercisePaths, ∀ part ∈ fixedParts e.style clone tests,
    part.2 = q.parts ∧ part.1 = (if e = .make then clone else tests) ∨ AreApart part.2 q.parts := by
  have htest : (Path.ofString "test").parts = ["test"] ∧ (Path.ofString "tmc").parts = ["tmc"] ∧
    (Path.ofString "src/test").parts = ["src", "test"] := by decide +kernel
  cases e <;> simp [Ecosystem.defaultExercisePaths, Ecosystem.style, fixedParts, htest] <;> decide

/-- A name at the top leaves a default part of the exercise alone, unless it is this part. -/
private theorem top_apart (e : Ecosystem) : ∀ q ∈ e.defaultExercisePaths,
    ∃ c rest, q.parts = c :: rest ∧ (rest ≠ [] → ∃ d more, rest = d :: more ∧ d ≠ c) := by
  cases e with
  | maven => exact fun q hq => ⟨"src", ["test"], by revert hq; revert q; decide +kernel, fun _ => ⟨"test", [], rfl, by decide⟩⟩
  | python =>
    intro q hq
    have hparts : ∀ q ∈ Ecosystem.python.defaultExercisePaths, q.parts = ["test"] ∨ q.parts = ["tmc"] := by decide +kernel
    rcases hparts q hq with h | h
    · exact ⟨_, [], h, fun hne => absurd rfl hne⟩
    · exact ⟨_, [], h, fun hne => absurd rfl hne⟩
  | _ => exact fun q hq => ⟨"test", [], by revert hq; revert q; decide +kernel, fun hne => absurd rfl hne⟩

/-- The project from which a package has its tests. -/
def testProject (e : Ecosystem) (clone tests : Path) : Path := if e = .make then clone else tests

/-- A part goes to its own place or to its last name. -/
theorem IsPart.place_mem {p : Path} (h : IsPart u p q l) (hq : Config.IsInside q) (hne : q.parts ≠ []) :
    l.place ∈ [q.parts, [q.name]] := by
  rcases h with rfl | rfl
  · exact List.mem_cons_self ..
  · exact List.mem_cons_of_mem _ (List.mem_singleton.2 (gathered_place hq hne))

/-- In a merge for an exercise without exceptions, every layer leaves a part of the exercise alone or is a copy of it. -/
theorem mergeLayers_spares {c : Config} (hu : u.Sound) (hstudent : c.extraStudentFiles = [])
    (hexercise : c.extraExerciseFiles = []) (hlisted : Layer.never ∉ topLayers u (topProject e.style clone tests))
    (hq : q ∈ e.defaultExercisePaths) (htop : atTop (u.file? (topProject e.style clone tests)) q.parts = none) :
    ∀ l ∈ mergeLayers u e.style received clone tests (e.layoutOf c), l.Spares q.parts ∨
      l.place = q.parts ∧ l.offers = u.offers ((testProject e clone tests).append q.parts) := by
  obtain ⟨-, hstudents, hexercises⟩ := defaults_apart e q hq
  have hne : ∀ r ∈ e.defaultStudentPaths ++ e.defaultExercisePaths, r.parts ≠ [] := by cases e <;> decide +kernel
  intro l hl
  rcases cases_of_mem_mergeLayers hl with ⟨part, hfixed, rfl⟩ | ⟨r, hr, hpart⟩ | ⟨hstyle, r, hr, hpart⟩ | hl
  · rcases fixed_apart e q hq part hfixed with ⟨hplace, hproject⟩ | hapart
    · refine .inr ⟨hplace, ?_⟩
      show u.offers (part.1.append part.2) = _
      rw [hproject, hplace]
      rfl
    · exact .inl hapart.spares
  · rw [Ecosystem.mem_studentPaths, hstudent, or_iff_left List.not_mem_nil] at hr
    have hmem := List.mem_append_left e.defaultExercisePaths hr
    have hapart := hstudents r hr _ (hpart.place_mem (inside_defaults e r hmem) (hne r hmem))
    exact .inl hapart.spares
  · rw [Ecosystem.mem_exercisePaths, hexercise, or_iff_left List.not_mem_nil] at hr
    have hmem := List.mem_append_right e.defaultStudentPaths hr
    rcases hexercises r hr _ (hpart.place_mem (inside_defaults e r hmem) (hne r hmem)) with ⟨hplace, rfl⟩ | hapart
    · refine .inr ⟨hplace, ?_⟩
      have hmake : e ≠ .make := fun hmake => hstyle (Ecosystem.style_eq_make_iff.2 hmake)
      rw [show testProject e clone tests = tests from if_neg hmake, ← join_of_inside (inside_defaults e r hmem)]
      rcases hpart with rfl | rfl <;> rfl
    · exact .inl hapart.spares
  · obtain ⟨name, hplain, rfl, data, executable, hoffer⟩ := exists_of_mem_topLayers hu hlisted hl
    obtain ⟨c, rest, hparts, hrest⟩ := top_apart e q hq
    rw [hparts] at htop ⊢
    by_cases hname : name = c
    · subst hname
      cases rest with
      | nil =>
        cases (show u.file? _ [name] = none from htop).symm.trans (file?_of_top hplain hoffer)
      | cons d more =>
        obtain ⟨d', more', hcons, hd⟩ := hrest (List.cons_ne_nil _ _)
        obtain ⟨rfl, rfl⟩ := List.cons.inj hcons
        refine .inl (Layer.spares_of_file hoffer (c := d) ?_ more)
        exact fun he => hd (he.trans (Path.name_child _ name))
    · exact .inl (AreApart.spares (areApart_of_ne hname rest))

/-- A merge has the layer of a part of the exercise if the part is there. -/
theorem layerIf_subset_mergeLayers {c : Config} (hq : q ∈ e.defaultExercisePaths) :
    layerIf u ((testProject e clone tests).append q.parts) q.parts ⊆
      mergeLayers u e.style received clone tests (e.layoutOf c) := by
  have hinside := inside_defaults e q (List.mem_append_right _ hq)
  have hlayout : q ∈ (e.layoutOf c).exercisePaths := Ecosystem.mem_exercisePaths.2 (.inl hq)
  intro l hl
  cases hstyle : e.style with
  | maven =>
    have hmake : e ≠ .make := by
      rintro rfl
      cases hstyle
    rw [show testProject e clone tests = tests from if_neg hmake, ← join_of_inside hinside] at hl
    have hmem : l ∈ overlayLayers u tests (e.layoutOf c).exercisePaths := List.mem_flatMap.2 ⟨q, hlayout, hl⟩
    simp [mergeLayers, hmem]
  | make =>
    obtain rfl := Ecosystem.style_eq_make_iff.1 hstyle
    have hparts : ∀ q ∈ Ecosystem.make.defaultExercisePaths, q.parts = ["test"] := by decide +kernel
    rw [hparts q hq] at hl
    have hmem : l ∈ layerIf u (clone.child "test") ["test"] := hl
    simp [mergeLayers, hmem]
  | generic =>
    have hgeneric : e ≠ .make ∧ e ≠ .maven := by constructor <;> rintro rfl <;> cases hstyle
    have hname : [q.name] = q.parts ∧ q.parts ≠ [] := by
      have hnames : e ≠ .maven → ∀ q ∈ e.defaultExercisePaths, [q.name] = q.parts ∧ q.parts ≠ [] := by
        cases e <;> decide +kernel
      exact hnames hgeneric.2 q hq
    rw [show testProject e clone tests = tests from if_neg hgeneric.1, ← join_of_inside hinside] at hl
    have hmem : l ∈ gatherLayers u tests (e.layoutOf c).exercisePaths := by
      refine List.mem_flatMap.2 ⟨q, hlayout, ?_⟩
      rwa [gathered_place hinside hname.2, hname.1]
    simp [mergeLayers, hmem]

/-- Where every layer leaves a place alone or is a copy of one part of a project, and such a copy is made if the part is
there, the files at and below the place are exactly those of the part. -/
theorem Packed.region_file_iff (parts : Packed s request) {p : Path} {place : List String}
    (hplain : ∀ c ∈ place, IsPlain c) (hne : place ≠ [])
    (hlayers : ∀ l ∈ [paramsLayer request.params] ++ parts.copies, l.Spares place ∨
      l.place = place ∧ l.offers = (withPackage s.scratch parts.fetched).offers (p.append place))
    (hthere : ((withPackage s.scratch parts.fetched).node? true (p.append place)).isSome →
      ∃ l ∈ [paramsLayer request.params] ++ parts.copies,
        l.place = place ∧ l.offers = (withPackage s.scratch parts.fetched).offers (p.append place))
    (rest : List String) (data : Bytes) (executable : Bool) :
    parts.content (place ++ rest) = some (.file data executable) ↔
      (withPackage s.scratch parts.fetched).file? p (place ++ rest) = some (data, executable) := by
  rw [parts.stacked_copies.region_iff hne (offers_closed _ _) hlayers ?_ rest, ← Session.file?_append hplain,
    Session.file?_eq_some_iff]
  cases hnode : (withPackage s.scratch parts.fetched).node? true (p.append place) with
  | none =>
    refine .inr fun rest data executable hoffer => ?_
    cases (Session.file?_of_none hnode rest).symm.trans (Session.file?_eq_some_iff.2 hoffer)
  | some node => exact .inl (hthere (by rw [hnode]; rfl))

/-- The files of the project from which a package has its tests. -/
def Packed.testFile? (parts : Packed s request) : List String → Option (Bytes × Bool) :=
  if parts.ecosystem = .make then s.file? request.clone else parts.fetched.file? parts.tests

/-- The files below a part of the exercise are exactly those of the tests. -/
theorem Packed.tests_iff (parts : Packed s request) (hrequest : request.Apart s)
    (hstudent : parts.config.extraStudentFiles = []) (hexercise : parts.config.extraExerciseFiles = [])
    (hq : q ∈ parts.ecosystem.defaultExercisePaths) (htop : atTop parts.topFile? q.parts = none) (rest : List String)
    (data : Bytes) (executable : Bool) :
    parts.content (q.parts ++ rest) = some (.file data executable) ↔
      parts.testFile? (q.parts ++ rest) = some (data, executable) := by
  obtain ⟨hlisted, -, -⟩ := parts.roots hrequest
  have hsound := (parts.offers_eq hrequest).1
  obtain ⟨hplaces, -, -⟩ := defaults_apart parts.ecosystem q hq
  have hinside := inside_defaults parts.ecosystem q (List.mem_append_right _ hq)
  have hplain := plain_of_isName hinside.2
  have hne : q.parts ≠ [] := by
    obtain ⟨c, rest, hparts, -⟩ := top_apart parts.ecosystem q hq
    rw [hparts]
    exact List.cons_ne_nil _ _
  have hsources : (withPackage s.scratch parts.fetched).file?
      (testProject parts.ecosystem request.clone parts.tests) = parts.testFile? := by
    obtain ⟨hclone, htests⟩ := parts.file?_eq hrequest
    unfold testProject Packed.testFile?
    by_cases hmake : parts.ecosystem = .make
    · rw [if_pos hmake, if_pos hmake, hclone]
    · rw [if_neg hmake, if_neg hmake, htests]
  rw [← parts.topFile?_eq hrequest] at htop
  have hlayers : ∀ l ∈ [paramsLayer request.params] ++ parts.copies, l.Spares q.parts ∨ l.place = q.parts ∧
      l.offers = (withPackage s.scratch parts.fetched).offers
        ((testProject parts.ecosystem request.clone parts.tests).append q.parts) := by
    have hapart : ∀ {l : Layer}, l.place ∈ [paramsFileName] :: environmentNames.map (fun name => [name]) →
        l.Spares q.parts := fun h => (hplaces _ h).spares
    unfold Packed.copies
    rw [hstudent]
    refine List.forall_mem_append.2 ⟨fun l hl => .inl (hapart ?_), List.forall_mem_append.2 ⟨List.forall_mem_append.2
      ⟨fun l hl => .inl (hapart ?_), mergeLayers_spares hsound hstudent hexercise hlisted hq htop⟩, nofun⟩⟩
    · rw [List.mem_singleton.1 hl]
      exact List.mem_cons_self ..
    · obtain ⟨name, hname, hplace⟩ := environment_place hl
      rw [hplace]
      exact List.mem_cons_of_mem _ (List.mem_map_of_mem hname)
  rw [← hsources]
  refine parts.region_file_iff hplain hne hlayers (fun hthere => ?_) rest data executable
  refine ⟨layer _ _ q.parts, List.mem_append_right _ ?_, rfl, rfl⟩
  refine List.mem_append_left _ (List.mem_append_right _ (layerIf_subset_mergeLayers hq ?_))
  unfold layerIf
  rw [if_pos hthere]
  exact List.mem_singleton_self _

/-- When a submission to an exercise without exceptions could be packaged, the files below each default part of the
exercise are exactly those of the project that holds the tests, which is the stub's if there is a stub; in the style of
make they are always those of the clone.  It is assumed that no file at the top has the name of this part. -/
theorem tests_of_package {c : Config} (hrequest : request.Apart s) (hwritable : request.Writable s)
    (hload : ((Config.load request.clone).perform s).1 = .ok c) (hstudent : c.extraStudentFiles = [])
    (hexercise : c.extraExerciseFiles = []) (h : (pack request).perform s = (.ok (), t)) :
    ∃ parts : Packed s request, request.Written s t parts.content ∧
      ∀ q ∈ parts.ecosystem.defaultExercisePaths, atTop parts.topFile? q.parts = none → ∀ rest data executable,
        parts.content (q.parts ++ rest) = some (.file data executable) ↔
          parts.testFile? (q.parts ++ rest) = some (data, executable) := by
  obtain ⟨parts, hwritten⟩ := pack_written hrequest hwritable (namesClone_of_nil hload hstudent hexercise) h
  obtain rfl := Except.ok.inj (hload.symm.trans parts.load_eq)
  exact ⟨parts, hwritten, fun q hq htop => parts.tests_iff hrequest hstudent hexercise hq htop⟩

/-- A session in a directory `w` that holds a submission, a clone and a stub, each with tests of its own. -/
def sampleStubSession (mark : String) (place : List String) : Session where
  files := ⟨[(["w"], .directory), (["w", "c"], .directory), (["w", "c", mark], .file [] false)] ++
    place.inits.tail.map (fun dir => (["w", "c"] ++ dir, .directory)) ++
    [(["w", "c"] ++ place ++ ["T"], .file [2] false),
      (["w", "s.zip"], .file (Archive.encode .zip [⟨mark, .file [] false⟩, ⟨"/".intercalate (place ++ ["T"]), .file [1] false⟩]) false),
      (["w", "b.zip"], .file (Archive.encode .zip [⟨mark, .file [] false⟩, ⟨"/".intercalate (place ++ ["U"]), .file [3] false⟩]) false)]⟩
  workingDir := ["w"]
  scratch := ["t"]

/-- The packaging of the submission with the stub. -/
def sampleStub : Request :=
  { submission := ⟨.relative, ["s.zip"]⟩, output := ⟨.relative, ["o"]⟩, clone := ⟨.relative, ["c"]⟩,
    stub := some ⟨.relative, ["b.zip"]⟩, asZip := true }

/-- The samples of the two styles. -/
private def stubSamples : List (String × List String × Ecosystem) :=
  [("pom.xml", ["src", "test"], .maven), ("Makefile", ["test"], .make)]

/-- The sample can be packaged as far as paths and the configuration are concerned. -/
private theorem sampleStub_suits {mark : String} {place : List String} (hr : (mark, place, e) ∈ stubSamples)
    (hs : s = sampleStubSession mark place) :
    sampleStub.Apart s ∧ sampleStub.Writable s ∧ ((Config.load sampleStub.clone).perform s).1 = .ok {} ∧
      ((receive sampleStub).perform s).1 = .ok (Location.path ["t", "received"], e) ∧
      ((testsOf sampleStub s.scratch.path).perform ((receive sampleStub).perform s).2).1 =
        .ok (Location.path ["t", "stub"]) ∧
      ((pack sampleStub).perform s).1 = .ok () := by
  have hrun : ∀ r ∈ stubSamples, let s := sampleStubSession r.1 r.2.1
      s.Unlinked ∧ ((Config.load sampleStub.clone).perform s).1 = .ok {} ∧
        ((receive sampleStub).perform s).1 = .ok (Location.path ["t", "received"], r.2.2) ∧
        ((testsOf sampleStub s.scratch.path).perform ((receive sampleStub).perform s).2).1 =
          .ok (Location.path ["t", "stub"]) ∧
        ((pack sampleStub).perform s).1 = .ok () := by decide +kernel
  obtain ⟨hunlinked, hrest⟩ := hrun _ hr
  rw [hs]
  exact ⟨Request.apart_of_unlinked hunlinked (by decide +kernel),
    Request.writable_of_unlinked hunlinked (by decide +kernel) (by decide +kernel), hrest⟩

/-- In the style of Maven, the tests of the sample are those of the stub. -/
theorem sampleStub_maven :
    let s := sampleStubSession "pom.xml" ["src", "test"]
    ∃ parts : Packed s sampleStub, sampleStub.Written s ((pack sampleStub).perform s).2 parts.content ∧
      parts.content ["src", "test", "U"] = some (.file [3] false) ∧
      ∀ data executable, parts.content ["src", "test", "T"] ≠ some (.file data executable) := by
  intro s
  obtain ⟨hrequest, hwritable, hload, hreceive, hfetch, hok⟩ :=
    sampleStub_suits (s := s) (show ("pom.xml", ["src", "test"], Ecosystem.maven) ∈ stubSamples by decide) rfl
  have hfiles : let fetched := ((testsOf sampleStub s.scratch.path).perform ((receive sampleStub).perform s).2).2
      fetched.file? (Location.path ["t", "stub"]) ["src", "test", "U"] = some ([3], false) ∧
        fetched.file? (Location.path ["t", "stub"]) ["src", "test", "T"] = none := by decide +kernel
  clear_value s
  obtain ⟨parts, hwritten, htests⟩ := tests_of_package hrequest hwritable hload rfl rfl (perform_eq_of_fst hok)
  obtain ⟨-, hecosystem, hreceived, -⟩ := parts.eq_of_receive hreceive
  have hfetched := parts.fetch_eq
  rw [hreceived] at hfetched
  rw [hfetched] at hfetch hfiles
  obtain htestsPath : parts.tests = _ := Except.ok.inj hfetch
  have hsource : parts.testFile? = parts.fetched.file? (Location.path ["t", "stub"]) := by
    unfold Packed.testFile?
    rw [hecosystem, htestsPath]
    exact if_neg (by decide)
  have hq : (⟨.relative, ["src", "test"]⟩ : Path) ∈ parts.ecosystem.defaultExercisePaths := by
    rw [hecosystem]
    decide +kernel
  have hiff := htests _ hq rfl
  rw [hsource] at hiff
  refine ⟨parts, hwritten, (hiff ["U"] _ _).2 hfiles.1, fun data executable hcontent => ?_⟩
  have hfile := (hiff ["T"] data executable).1 hcontent
  cases hfiles.2.symm.trans hfile

/-- In the style of make, they are those of the clone. -/
theorem sampleStub_make :
    let s := sampleStubSession "Makefile" ["test"]
    ∃ parts : Packed s sampleStub, sampleStub.Written s ((pack sampleStub).perform s).2 parts.content ∧
      parts.content ["test", "T"] = some (.file [2] false) ∧ parts.content ["test", "U"] = none := by
  intro s
  obtain ⟨hrequest, hwritable, hload, hreceive, -, hok⟩ :=
    sampleStub_suits (s := s) (show ("Makefile", ["test"], Ecosystem.make) ∈ stubSamples by decide) rfl
  have hfurnish : let content := ((furnish sampleStub s.scratch.path (Location.path ["t", "received"], .make)).perform
        ((receive sampleStub).perform s).2).2.files.content (s.scratch ++ ["dest"])
      content ["test", "T"] = some (.file [2] false) ∧ content ["test", "U"] = none := by decide +kernel
  clear_value s
  obtain ⟨parts, hwritten⟩ := pack_written hrequest hwritable (namesClone_of_nil hload rfl rfl) (perform_eq_of_fst hok)
  obtain ⟨-, -, -, hfurnished⟩ := parts.eq_of_receive hreceive
  refine ⟨parts, hwritten, ?_⟩
  unfold Packed.content
  rw [hfurnished]
  exact hfurnish

end Handout.Submission

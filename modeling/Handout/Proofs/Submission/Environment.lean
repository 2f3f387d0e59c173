import Handout.Proofs.Submission.Stub

/-!
# What development environments keep in a package

What a development environment keeps in a project, such as `.classpath` or `.idea`, is packaged as the student has it,
and as the clone has it if the student has nothing of the kind.  The copies that follow do not reach the places of
these names, except those of the files at the top of a project, which are copied last (`spares_or_top`).  So the
student's may get lost to a file of the same name; where there is no such file, or it is the clone's and the student
has nothing to lose, the files there are exactly those that were kept (`Packed.environment_iff`).
-/

namespace Handout.Submission

open Handout.Action Session

variable {s t u : Session} {p received clone tests : Path} {name : String} {l : Layer} {request : Request}
  {e : Ecosystem} {c : Config}

/-! ### The layers at the place of a name -/

/-- The first of the two projects that has an entry of some name, and the clone if neither has. -/
def keeper (u : Session) (received clone : Path) (name : String) : Path :=
  if (u.node? true (received.child name)).isSome then received else clone

/-- The names of development environments are no parts of projects, and none of them is that of the parameters. -/
private theorem names_apart : ∀ name ∈ environmentNames, IsPlain name ∧ AreApart [paramsFileName] [name] ∧
    (∀ other ∈ environmentNames, other ≠ name → AreApart [other] [name]) ∧
    (∀ place ∈ [["pom.xml"], ["src", "main"], ["src", "test"], ["src"], ["test"], ["lib"]], AreApart place [name]) := by
  decide

private theorem defaults_apart_names (e : Ecosystem) : ∀ q ∈ e.defaultStudentPaths ++ e.defaultExercisePaths,
    q.parts ≠ [] ∧ ∀ name ∈ environmentNames, ∀ place ∈ [q.parts, [q.name]], AreApart place [name] := by
  cases e <;> decide +kernel

/-- The layers for development environments leave the place of a name alone, or are a copy of what is kept. -/
theorem environmentLayers_spares (hname : name ∈ environmentNames)
    (hl : l ∈ environmentLayers u received clone environmentNames) :
    l.Spares [name] ∨ l.place = [name] ∧ l.offers = u.offers ((keeper u received clone name).append [name]) := by
  obtain ⟨other, hother, hl⟩ := List.mem_flatMap.1 hl
  have hkept : l = layer u ((keeper u received clone other).append [other]) [other] := by
    unfold keeper
    split at hl
    · rename_i hhas
      rw [List.mem_singleton.1 hl, if_pos hhas]
      rfl
    · rename_i hnot
      rw [eq_of_mem_layerIf hl, if_neg hnot]
      rfl
  subst hkept
  by_cases heq : other = name
  · subst heq
    exact .inr ⟨rfl, rfl⟩
  · exact .inl ((names_apart name hname).2.2.1 other hother heq).spares

/-- What is kept has a layer if it is there. -/
theorem exists_environmentLayer (hname : name ∈ environmentNames)
    (hthere : (u.node? true ((keeper u received clone name).append [name])).isSome) :
    ∃ l ∈ environmentLayers u received clone environmentNames,
      l.place = [name] ∧ l.offers = u.offers ((keeper u received clone name).append [name]) := by
  refine ⟨layer u ((keeper u received clone name).append [name]) [name], List.mem_flatMap.2 ⟨name, hname, ?_⟩, rfl, rfl⟩
  unfold keeper at hthere ⊢
  split
  · exact List.mem_singleton_self _
  · rename_i hnot
    rw [if_neg hnot] at hthere
    unfold layerIf
    rw [Path.child_eq_append, if_pos hthere]
    exact List.mem_singleton_self _

/-- A layer of a merge for an exercise without exceptions leaves the place of a name alone, unless it is the copy of a
file of that name at the top of a project. -/
theorem spares_or_top (hu : u.Sound) (hstudent : c.extraStudentFiles = []) (hexercise : c.extraExerciseFiles = [])
    (hlisted : Layer.never ∉ topLayers u (topProject e.style clone tests)) (hname : name ∈ environmentNames)
    (hl : l ∈ mergeLayers u e.style received clone tests (e.layoutOf c)) :
    l.Spares [name] ∨ l = layer u ((topProject e.style clone tests).append [name]) [name] ∧
      u.file? (topProject e.style clone tests) [name] ≠ none := by
  have hpart : ∀ {project q : Path}, q ∈ e.defaultStudentPaths ++ e.defaultExercisePaths → IsPart u project q l →
      l.Spares [name] := fun {_ q} hq hpart =>
    ((defaults_apart_names e q hq).2 name hname _
      (hpart.place_mem (inside_defaults e q hq) (defaults_apart_names e q hq).1)).spares
  rcases cases_of_mem_mergeLayers hl with ⟨part, hfixed, rfl⟩ | ⟨q, hq, hl⟩ | ⟨-, q, hq, hl⟩ | hl
  · exact .inl ((names_apart name hname).2.2.2 _ (fixedParts_place hfixed)).spares
  · rw [Ecosystem.mem_studentPaths, hstudent, or_iff_left List.not_mem_nil] at hq
    exact .inl (hpart (List.mem_append_left _ hq) hl)
  · rw [Ecosystem.mem_exercisePaths, hexercise, or_iff_left List.not_mem_nil] at hq
    exact .inl (hpart (List.mem_append_right _ hq) hl)
  · obtain ⟨other, hplain, rfl, data, executable, hoffer⟩ := exists_of_mem_topLayers hu hlisted hl
    by_cases heq : other = name
    · subst heq
      exact .inr ⟨rfl, ne_of_eq_of_ne (file?_of_top hplain hoffer) (Option.some_ne_none _)⟩
    · exact .inl (AreApart.spares (areApart_of_ne heq []))

/-! ### The files at the place of a name -/

/-- Whether the received project has an entry of some name. -/
def Packed.has (parts : Packed s request) (name : String) : Prop :=
  (parts.received.node? true (parts.project.child name)).isSome

instance (parts : Packed s request) (name : String) : Decidable (parts.has name) := inferInstanceAs (Decidable (_ = true))

/-- The files of the project that decides what is kept under some name: the received one if it has such an entry, and
else the clone. -/
def Packed.keptFile? (parts : Packed s request) (name : String) : List String → Option (Bytes × Bool) :=
  if parts.has name then parts.received.file? parts.project else s.file? request.clone

/-- Whether files at the top of another project may be laid over what is kept under some name. -/
def Packed.IsExposed (parts : Packed s request) (name : String) : Prop :=
  parts.has name ∨ parts.ecosystem = .make ∧ request.stub ≠ none

theorem Packed.keeper_eq (parts : Packed s request) (hrequest : request.Apart s) (hname : name ∈ environmentNames) :
    keeper (withPackage s.scratch parts.fetched) parts.project request.clone name =
        (if parts.has name then parts.project else request.clone) ∧
      (withPackage s.scratch parts.fetched).file? (if parts.has name then parts.project else request.clone) =
        parts.keptFile? name := by
  obtain ⟨-, hclone, hproject, -, hhas⟩ := parts.offers_eq hrequest
  refine ⟨?_, ?_⟩
  · have hhas := hhas name hname
    unfold keeper Packed.has
    simp only [hhas]
    rfl
  · unfold Packed.keptFile? Session.file?
    split
    · rw [hproject]
    · rw [hclone]

/-- The copies of a package leave the place of a name alone, but for what is kept there. -/
theorem Packed.copies_spare (parts : Packed s request) (hrequest : request.Apart s)
    (hstudent : parts.config.extraStudentFiles = []) (hexercise : parts.config.extraExerciseFiles = [])
    (hname : name ∈ environmentNames) (htop : parts.IsExposed name → parts.topFile? [name] = none) :
    ∀ l ∈ [paramsLayer request.params] ++ parts.copies, l.Spares [name] ∨ l.place = [name] ∧
      l.offers = (withPackage s.scratch parts.fetched).offers
        ((if parts.has name then parts.project else request.clone).append [name]) := by
  obtain ⟨hlisted, -, -⟩ := parts.roots hrequest
  have hsound := (parts.offers_eq hrequest).1
  have hkeeper := (parts.keeper_eq hrequest hname).1
  unfold Packed.copies
  rw [hstudent]
  refine List.forall_mem_append.2 ⟨fun l hl => ?_, List.forall_mem_append.2 ⟨List.forall_mem_append.2
    ⟨fun l hl => ?_, fun l hl => ?_⟩, nofun⟩⟩
  · rw [List.mem_singleton.1 hl]
    exact .inl (names_apart name hname).2.1.spares
  · rw [← hkeeper]
    exact environmentLayers_spares hname hl
  · rcases spares_or_top hsound hstudent hexercise hlisted hname hl with hspares | ⟨rfl, hfile⟩
    · exact .inl hspares
    · -- the file at the top is the one that is kept
      rw [parts.topFile?_eq hrequest] at hfile
      have hnot : ¬ parts.IsExposed name := fun h => hfile (htop h)
      refine .inr ⟨rfl, ?_⟩
      have hproject : topProject parts.ecosystem.style request.clone parts.tests = request.clone := by
        unfold topProject
        split
        · rename_i hstyle
          have hmake := Ecosystem.style_eq_make_iff.1 hstyle
          exact (parts.tests_eq (by_contra fun hstub => hnot (.inr ⟨hmake, hstub⟩))).1
        · rfl
      rw [hproject, if_neg fun h => hnot (.inl h)]
      rfl

/-- The files at the place of a name are exactly those that are kept. -/
theorem Packed.environment_iff (parts : Packed s request) (hrequest : request.Apart s)
    (hstudent : parts.config.extraStudentFiles = []) (hexercise : parts.config.extraExerciseFiles = [])
    (hname : name ∈ environmentNames) (htop : parts.IsExposed name → parts.topFile? [name] = none) (rest : List String)
    (data : Bytes) (executable : Bool) :
    parts.content (name :: rest) = some (.file data executable) ↔
      parts.keptFile? name (name :: rest) = some (data, executable) := by
  obtain ⟨hkeeper, hfiles⟩ := parts.keeper_eq hrequest hname
  have hplain : ∀ c ∈ [name], IsPlain c := by simpa using (names_apart name hname).1
  rw [show name :: rest = [name] ++ rest from rfl, ← hfiles]
  refine parts.region_file_iff hplain (List.cons_ne_nil name [])
    (parts.copies_spare hrequest hstudent hexercise hname htop) (fun hthere => ?_) rest data executable
  rw [← hkeeper] at hthere ⊢
  obtain ⟨l, hl, hcopy⟩ := exists_environmentLayer hname hthere
  exact ⟨l, List.mem_append_right _ (List.mem_append_left _ (List.mem_append_left _ hl)), hcopy⟩

/-- When a submission to an exercise without exceptions could be packaged, the files at and below the name of what a
development environment keeps are exactly those of the received project if it has an entry of this name, and else those
of the clone.  It is assumed that no file of this name is at the top of the project whose top files are copied, if this
is not the project that decides. -/
theorem environment_of_package (hrequest : request.Apart s) (hwritable : request.Writable s)
    (hload : ((Config.load request.clone).perform s).1 = .ok c) (hstudent : c.extraStudentFiles = [])
    (hexercise : c.extraExerciseFiles = []) (h : (pack request).perform s = (.ok (), t)) :
    ∃ parts : Packed s request, request.Written s t parts.content ∧
      ∀ name ∈ environmentNames, (parts.IsExposed name → parts.topFile? [name] = none) → ∀ rest data executable,
        parts.content (name :: rest) = some (.file data executable) ↔
          parts.keptFile? name (name :: rest) = some (data, executable) := by
  obtain ⟨parts, hwritten⟩ := pack_written hrequest hwritable (namesClone_of_nil hload hstudent hexercise) h
  obtain rfl := Except.ok.inj (hload.symm.trans parts.load_eq)
  exact ⟨parts, hwritten, fun name hname htop => parts.environment_iff hrequest hstudent hexercise hname htop⟩

/-- A session in a directory `w` with a submission and a clone that both have entries of development environments. -/
def sampleSettingsSession : Session where
  files := ⟨[(["w"], .directory), (["w", "c"], .directory), (["w", "c", "pom.xml"], .file [] false),
    (["w", "c", ".idea"], .directory), (["w", "c", ".idea", "C"], .file [2] false),
    (["w", "c", ".classpath"], .file [3] false), (["w", "c", ".project"], .file [4] false),
    (["w", "s.zip"], .file (Archive.encode .zip
      [⟨"pom.xml", .file [] false⟩, ⟨".idea/S", .file [1] false⟩, ⟨".project", .file [5] false⟩]) false)]⟩
  workingDir := ["w"]
  scratch := ["t"]

/-- The packaging of the submission. -/
def sampleSettings : Request :=
  { submission := ⟨.relative, ["s.zip"]⟩, output := ⟨.relative, ["o"]⟩, clone := ⟨.relative, ["c"]⟩, asZip := true }

/-- The sample can be packaged. -/
private theorem sampleSettings_suits (hs : s = sampleSettingsSession) :
    sampleSettings.Apart s ∧ sampleSettings.Writable s ∧ ((Config.load sampleSettings.clone).perform s).1 = .ok {} ∧
      ((receive sampleSettings).perform s).1 = .ok (Location.path ["t", "received"], .maven) ∧
      ((pack sampleSettings).perform s).1 = .ok () := by
  have hrun : let s := sampleSettingsSession
      s.Unlinked ∧
        ((Config.load sampleSettings.clone).perform s).1 = .ok {} ∧
        ((receive sampleSettings).perform s).1 = .ok (Location.path ["t", "received"], .maven) ∧
        ((pack sampleSettings).perform s).1 = .ok () := by decide +kernel
  obtain ⟨hunlinked, hrest⟩ := hrun
  subst hs
  exact ⟨Request.apart_of_unlinked hunlinked (by decide +kernel),
    Request.writable_of_unlinked hunlinked (by decide +kernel) (by decide +kernel), hrest⟩

/-- The sample has the student's directory alone, and the clone's file where the student has none. -/
theorem sampleSettings_kept :
    let s := sampleSettingsSession
    ∃ parts : Packed s sampleSettings, sampleSettings.Written s ((pack sampleSettings).perform s).2 parts.content ∧
      parts.content [".idea", "S"] = some (.file [1] false) ∧
      (∀ data executable, parts.content [".idea", "C"] ≠ some (.file data executable)) ∧
      parts.content [".classpath"] = some (.file [3] false) := by
  intro s
  obtain ⟨hrequest, hwritable, hload, hreceive, hok⟩ := sampleSettings_suits (s := s) rfl
  have hfiles : let received := ((receive sampleSettings).perform s).2
      let project := Location.path ["t", "received"]
      (received.node? true (project.child ".idea")).isSome ∧ (received.node? true (project.child ".classpath")).isNone ∧
        received.file? project [".idea", "S"] = some ([1], false) ∧ received.file? project [".idea", "C"] = none ∧
        s.file? sampleSettings.clone [".idea"] = none ∧
        s.file? sampleSettings.clone [".classpath"] = some ([3], false) := by decide +kernel
  clear_value s
  obtain ⟨parts, hwritten, hkept⟩ := environment_of_package hrequest hwritable hload rfl rfl (perform_eq_of_fst hok)
  obtain ⟨hproject, hecosystem, hreceived, -⟩ := parts.eq_of_receive hreceive
  rw [← hreceived, ← hproject] at hfiles
  obtain ⟨hidea, hclasspath, hstudent, hclone, htop, hsettings⟩ := hfiles
  have hmake : parts.ecosystem ≠ .make := by rw [hecosystem]; decide
  have hnot : ¬ parts.has ".classpath" := by
    unfold Packed.has
    rw [Option.isNone_iff_eq_none.1 hclasspath]
    exact Bool.false_ne_true
  have hown := hkept ".idea" (by decide) fun _ => by
    unfold Packed.topFile?
    rwa [if_neg hmake]
  have hother := hkept ".classpath" (by decide) fun h => h.elim (absurd · hnot) fun h => absurd h.1 hmake
  rw [show parts.keptFile? ".idea" = _ from if_pos hidea] at hown
  rw [show parts.keptFile? ".classpath" = _ from if_neg hnot] at hother
  refine ⟨parts, hwritten, (hown ["S"] _ _).2 hstudent, fun data executable hcontent => ?_, (hother [] _ _).2 hsettings⟩
  cases hclone.symm.trans ((hown ["C"] data executable).1 hcontent)

/-- A file of the student is lost to a file of the same name at the top of the clone. -/
theorem sampleSettings_lost :
    let s := sampleSettingsSession
    ∃ parts : Packed s sampleSettings, sampleSettings.Written s ((pack sampleSettings).perform s).2 parts.content ∧
      parts.received.file? parts.project [".project"] = some ([5], false) ∧
      parts.content [".project"] = some (.file [4] false) := by
  intro s
  obtain ⟨hrequest, hwritable, hload, hreceive, hok⟩ := sampleSettings_suits (s := s) rfl
  have hrun : let received := ((receive sampleSettings).perform s).2
      received.file? (Location.path ["t", "received"]) [".project"] = some ([5], false) ∧
        ((furnish sampleSettings s.scratch.path (Location.path ["t", "received"], .maven)).perform
          received).2.files.content (s.scratch ++ ["dest"]) [".project"] = some (.file [4] false) := by decide +kernel
  clear_value s
  obtain ⟨parts, hwritten⟩ := pack_written hrequest hwritable (namesClone_of_nil hload rfl rfl) (perform_eq_of_fst hok)
  obtain ⟨hproject, -, hreceived, hfurnished⟩ := parts.eq_of_receive hreceive
  refine ⟨parts, hwritten, ?_, ?_⟩
  · rw [hreceived, hproject]
    exact hrun.1
  · unfold Packed.content
    rw [hfurnished]
    exact hrun.2

end Handout.Submission

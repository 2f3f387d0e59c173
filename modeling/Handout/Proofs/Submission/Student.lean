import Handout.Proofs.Project.Classification
import Handout.Proofs.Submission.Delivery
import Handout.Proofs.Submission.Instructor

/-!
# What comes from the student

A file of the student is packaged as it was received when the layers that come last have nothing else at its place
(`Keeps`).  An extra student file is copied last of all (`packageLayers_keep_extra`).  A source is copied before the
parts of the exercise and the files at the top of the project, and in the common style before other parts of the same
name (`Undisturbed`); apart from these it is kept as well (`packageLayers_keep`).
-/

namespace Handout.Submission

open Handout.Action Session

variable {s u : Session} {p clone received tests : Path} {names rest : List String} {data : Bytes} {ls ks first : List Layer}
  {e e' : Ecosystem} {c : Config} {q : Path} {rel : List String}

/-! ### Layers that keep some data -/

/-- Where layers have a file at a place, the last one has some data there. -/
def Keeps (data : Bytes) (names : List String) (ls : List Layer) : Prop :=
  ∀ file, lastFile? ls names = some file → file.1 = data

theorem Keeps.of_forall (h : ∀ l ∈ ls, ∀ file, l.file? names = some file → file.1 = data) : Keeps data names ls := by
  intro file hfile
  obtain ⟨l, hl, hfile⟩ := List.exists_of_findSome?_eq_some hfile
  exact h l (List.mem_reverse.1 hl) file hfile

theorem Keeps.append (h : Keeps data names ls) (h' : Keeps data names ks) : Keeps data names (ls ++ ks) := by
  intro file hfile
  rw [lastFile?_append] at hfile
  rcases Option.or_eq_some_iff.1 hfile with hlast | ⟨-, hfirst⟩
  · exact h' file hlast
  · exact h file hfirst

/-- Layers that keep some data decide, if they have a file, on the file there. -/
theorem Keeps.lastFile?_append (h : Keeps data names ls) (hsome : ∃ l ∈ ls, l.file? names ≠ none) :
    ∃ executable, lastFile? (first ++ ls) names = some (data, executable) := by
  rw [Submission.lastFile?_append]
  cases hlast : lastFile? ls names with
  | none =>
    obtain ⟨l, hl, hfile⟩ := hsome
    exact absurd (List.findSome?_eq_none_iff.1 hlast l (List.mem_reverse.2 hl)) hfile
  | some file =>
    obtain ⟨_, executable⟩ := file
    obtain rfl := h _ hlast
    exact ⟨executable, rfl⟩

/-- Layers that agree with a project keep its data. -/
theorem Keeps.of_agreesWith {project : List String → Option (Bytes × Bool)} (h : ∀ l ∈ ls, AgreesWith project names l)
    (hproject : ∀ file, project names = some file → file.1 = data) : Keeps data names ls := by
  refine .of_forall fun l hl file hfile => ?_
  by_cases hplace : l.place <+: names
  · exact hproject file ((h l hl hplace).symm.trans hfile)
  · rw [Layer.file?_eq_none hplace] at hfile
    cases hfile

/-! ### Sources -/

/-- Where the sources of a project are, which belong to the student. -/
def sourcePlace : PackagingStyle → List String
  | .maven => ["src", "main"]
  | .make | .generic => ["src"]

theorem defaultStudentPaths_eq (e : Ecosystem) : e.defaultStudentPaths = [⟨.relative, sourcePlace e.style⟩] := by
  cases e <;> decide +kernel

/-- A source lies where the sources of a project are. -/
theorem sourcePlace_prefix (h : e.isStudentSource ⟨.relative, rel⟩ = true) : sourcePlace e.style <+: rel := by
  have hstarts : ∀ {text : String} {place : List String}, Path.ofString text = ⟨.relative, place⟩ →
      Path.startsWith ⟨.relative, rel⟩ (.ofString text) = true → place <+: rel := by
    intro text place htext hstarts
    rw [htext] at hstarts
    exact Path.startsWith_iff.1 hstarts
  cases e with
  | maven => exact hstarts (by decide +kernel) h
  | ant => exact hstarts (by decide +kernel) h
  | make => exact hstarts (by decide +kernel) h
  | csharp => exact hstarts (by decide +kernel) (Bool.and_eq_true_iff.1 h).1
  | python => exact hstarts (by decide +kernel) (Bool.and_eq_true_iff.1 (Bool.and_eq_true_iff.1 h).1).1

/-- A file of a gathered part is at the same names below the part. -/
theorem file?_of_gathered {l : Layer} {file : Bytes × Bool} (hq : Config.IsInside q) (hne : q.parts ≠ [])
    (hl : l ∈ layerIf u (p.join q) (Path.ofString (p.join q).name).parts) (hfile : l.file? names = some file) :
    ∃ rest, names = q.name :: rest ∧ u.file? p (q.parts ++ rest) = some file := by
  rw [gathered_place hq hne] at hl
  obtain rfl := eq_of_mem_layerIf hl
  obtain ⟨rest, rfl, hoffer⟩ := Layer.file?_eq_some hfile
  refine ⟨rest, rfl, ?_⟩
  rw [← Session.file?_append (plain_of_isName hq.2), ← join_of_inside hq]
  unfold Session.file?
  rw [show u.offers (p.join q) rest = _ from hoffer]

/-- Apart from the extra student files, nothing else is copied to the place of a source: no file at the top of the
clone, and in the common style nothing out of another part of the same name. -/
structure Undisturbed (style : PackagingStyle) (c : Config) (received clone : List String → Option (Bytes × Bool))
    (rel : List String) (data : Bytes) : Prop where
  top : rel.length = 1 → ∀ file, clone rel = some file → file.1 = data
  student : style = .generic → ∀ q ∈ c.extraStudentFiles, ∀ rest, rel = q.name :: rest →
    ∀ file, received (q.parts ++ rest) = some file → file.1 = data
  exercise : style = .generic → ∀ q ∈ c.extraExerciseFiles, ∀ rest, rel = q.name :: rest →
    ∀ file, clone (q.parts ++ rest) = some file → file.1 = data

variable {params : Params} {executable : Bool}

/-- The layer of a part has the file of the project in this part. -/
theorem exists_file?_layerIf {place : List String} (hplace : place <+: names) (hplain : ∀ c ∈ place, IsPlain c)
    (hfile : u.file? p names ≠ none) : ∃ l ∈ layerIf u (p.append place) place, l.file? names ≠ none := by
  obtain ⟨l, hl, hreach⟩ := exists_layerIf hfile hplace
  refine ⟨l, hl, ?_⟩
  rwa [agreesWith_layerIf hplain l hl hreach]

/-- A student path has a layer with the files of the project in it. -/
theorem exists_file?_overlayLayers {ps : List Path} (hq : q ∈ ps) (hinside : Config.IsInside q) (hplace : q.parts <+: names)
    (hfile : u.file? p names ≠ none) : ∃ l ∈ overlayLayers u p ps, l.file? names ≠ none := by
  obtain ⟨l, hl, hsome⟩ := exists_file?_layerIf hplace (plain_of_isName hinside.2) hfile
  rw [← join_of_inside hinside] at hl
  exact ⟨l, List.mem_flatMap.2 ⟨q, hq, hl⟩, hsome⟩

theorem keeps_topLayers (hu : u.Sound) (hlisted : Layer.never ∉ topLayers u clone)
    (h : rel.length = 1 → ∀ file, u.file? clone rel = some file → file.1 = data) : Keeps data rel (topLayers u clone) := by
  intro file hfile
  rw [lastFile?_topLayers hu hlisted] at hfile
  unfold atTop at hfile
  split at hfile
  · rename_i hlength
    exact h hlength file hfile
  · cases hfile

/-- In the common style, the parts of the received project keep a source that is undisturbed. -/
theorem keeps_gathered_student (hc : c.Inside) (hstyle : e.style = .generic)
    (hfile : ∀ file, u.file? received rel = some file → file.1 = data)
    (hcovers : ¬ Config.Covers c.extraStudentFiles rel) (hplace : sourcePlace e.style <+: rel)
    (hundisturbed : Undisturbed e.style c (u.file? received) (u.file? clone) rel data) :
    Keeps data rel (gatherLayers u received (e.layoutOf c).studentPaths) := by
  refine .of_forall fun l hl file hlayer => ?_
  obtain ⟨q, hq, hl⟩ := List.mem_flatMap.1 hl
  have hinside := inside_layout hc e q (List.mem_append_left _ hq)
  rw [Ecosystem.mem_studentPaths, defaultStudentPaths_eq, List.mem_singleton] at hq
  rw [hstyle] at hq hplace
  have hne : q.parts ≠ [] := by
    intro hnil
    rcases hq with rfl | hq
    · cases hnil
    · exact hcovers ⟨q, hq, by rw [hnil]; exact List.nil_prefix⟩
  obtain ⟨rest, rfl, hsource⟩ := file?_of_gathered hinside hne hl hlayer
  rcases hq with rfl | hq
  · exact hfile file hsource
  · exact hundisturbed.student hstyle q hq rest rfl file hsource

/-- In the common style, the parts of the exercise keep a source that is undisturbed. -/
theorem keeps_gathered_exercise (hc : c.Inside) (hstyle : e.style = .generic)
    (hexercise : ¬ Config.Covers c.extraExerciseFiles rel) (hplace : sourcePlace e.style <+: rel)
    (hundisturbed : Undisturbed e.style c (u.file? received) (u.file? clone) rel data) :
    Keeps data rel (gatherLayers u clone (e.layoutOf c).exercisePaths) := by
  have hdefault : e.style = .generic → ∀ q ∈ e.defaultExercisePaths, q.parts ≠ [] ∧ q.name ≠ "src" := by
    cases e <;> decide +kernel
  refine .of_forall fun l hl file hlayer => ?_
  obtain ⟨q, hq, hl⟩ := List.mem_flatMap.1 hl
  have hinside := inside_layout hc e q (List.mem_append_right _ hq)
  rw [Ecosystem.mem_exercisePaths] at hq
  rw [hstyle] at hplace
  have hne : q.parts ≠ [] := by
    intro hnil
    rcases hq with hq | hq
    · exact (hdefault hstyle q hq).1 hnil
    · exact hexercise ⟨q, hq, by rw [hnil]; exact List.nil_prefix⟩
  obtain ⟨rest, rfl, hsource⟩ := file?_of_gathered hinside hne hl hlayer
  rcases hq with hq | hq
  · exact absurd (List.cons_prefix_cons.1 hplace).1.symm (hdefault hstyle q hq).2
  · exact hundisturbed.exercise hstyle q hq rest rfl file hsource

/-- A merge ends with layers that keep an undisturbed source and have it. -/
theorem mergeLayers_keep (hu : u.Sound) (hc : c.Inside) (hlisted : Layer.never ∉ topLayers u clone)
    (hfile : u.file? received rel = some (data, executable)) (hexercise : ¬ Config.Covers c.extraExerciseFiles rel)
    (hcovers : ¬ Config.Covers c.extraStudentFiles rel) (hplace : sourcePlace e.style <+: rel)
    (hundisturbed : Undisturbed e.style c (u.file? received) (u.file? clone) rel data) :
    ∃ first rest, mergeLayers u e.style received clone clone (e.layoutOf c) = first ++ rest ∧ Keeps data rel rest ∧
      ∃ l ∈ rest, l.file? rel ≠ none := by
  have hsome : u.file? received rel ≠ none := by
    rw [hfile]
    exact Option.some_ne_none _
  have hreceived : ∀ file, u.file? received rel = some file → file.1 = data := by
    intro file h
    rw [hfile] at h
    cases h
    rfl
  have hinside := inside_layout hc e
  have hstudent : Keeps data rel (overlayLayers u received (e.layoutOf c).studentPaths) :=
    .of_agreesWith (agreesWith_overlayLayers fun q hq => hinside q (List.mem_append_left _ hq)) hreceived
  have hdefault : ⟨.relative, sourcePlace e.style⟩ ∈ (e.layoutOf c).studentPaths := by
    rw [Ecosystem.mem_studentPaths, defaultStudentPaths_eq]
    exact .inl (List.mem_cons_self ..)
  have htop := keeps_topLayers hu hlisted hundisturbed.top
  have hsource := exists_file?_overlayLayers hdefault (hinside _ (List.mem_append_left _ hdefault)) hplace hsome
  -- what comes before the source is covered by it, so only the layers after it have to keep it
  cases hstyle : e.style with
  | maven =>
    have hdefault : e.style = .maven → ∀ q ∈ e.defaultExercisePaths, q.parts = ["src", "test"] := by
      cases e <;> decide +kernel
    have hapart : ∀ q ∈ (e.layoutOf c).exercisePaths, ¬ q.parts <+: rel := by
      intro q hq hreach
      rcases Ecosystem.mem_exercisePaths.1 hq with hq | hq
      · rw [hstyle] at hplace
        rw [hdefault hstyle q hq] at hreach
        exact (List.prefix_or_prefix_of_prefix hplace hreach).elim (by decide) (by decide)
      · exact hexercise ⟨q, hq, hreach⟩
    have htests : Keeps data rel (overlayLayers u clone (e.layoutOf c).exercisePaths) :=
      .of_agreesWith (agreesWith_overlayLayers_of_not hapart) hreceived
    obtain ⟨l, hl, hsome⟩ := hsource
    exact ⟨_, _, (List.append_assoc ..).trans (List.append_assoc ..), hstudent.append (htests.append htop),
      l, List.mem_append_left _ hl, hsome⟩
  | make =>
    obtain ⟨l, hl, hsome⟩ := hsource
    exact ⟨_, _ ++ _, List.append_assoc .., hstudent.append htop, l, List.mem_append_left _ hl, hsome⟩
  | generic =>
    have hgathered : ∃ l ∈ gatherLayers u received (e.layoutOf c).studentPaths, l.file? rel ≠ none := by
      rw [hstyle] at hplace hdefault
      obtain ⟨l, hl, hsome⟩ := exists_file?_layerIf hplace (by decide) hsome
      refine ⟨l, List.mem_flatMap.2 ⟨_, hdefault, ?_⟩, hsome⟩
      rwa [gathered_place (hinside _ (List.mem_append_left _ hdefault)) (by decide)]
    obtain ⟨l, hl, hsome⟩ := hgathered
    exact ⟨_, _, (List.append_assoc ..).trans (List.append_assoc ..),
      (keeps_gathered_student hc hstyle hreceived hcovers hplace hundisturbed).append
        ((keeps_gathered_exercise hc hstyle hexercise hplace hundisturbed).append htop),
      l, List.mem_append_left _ hl, hsome⟩

/-- What comes last, the extra student files, keeps a file of the received project. -/
theorem keeps_extra (hc : c.Inside) (hfile : u.file? received rel = some (data, executable)) :
    Keeps data rel (overlayLayers u received (Path.sort c.extraStudentFiles)) := by
  refine .of_agreesWith (agreesWith_overlayLayers fun q hq => ?_) fun file h => ?_
  · exact hc .extraStudentFiles q ((sortBy_perm _ _).mem_iff.1 hq)
  · rw [hfile] at h
    cases h
    rfl

/-- The layers of a package have, for an extra student file that was received, the same data there, whatever else is
copied to its place. -/
theorem packageLayers_keep_extra (hc : c.Inside) (hfile : u.file? received rel = some (data, executable))
    (hcovers : Config.Covers c.extraStudentFiles rel) :
    ∃ flag, lastFile? (packageLayers u params clone e received tests c) rel = some (data, flag) := by
  obtain ⟨q, hq, hprefix⟩ := hcovers
  have hinside : Config.IsInside q := hc .extraStudentFiles q hq
  refine (keeps_extra hc hfile).lastFile?_append (exists_file?_overlayLayers ?_ hinside hprefix ?_)
  · exact (sortBy_perm Path.le _).mem_iff.2 hq
  · rw [hfile]
    exact Option.some_ne_none _

/-- The layers of a package have, for a file of the student that was received, some data there that is the same. -/
theorem packageLayers_keep (hu : u.Sound) (hc : c.Inside)
    (hlisted : Layer.never ∉ packageLayers u params clone e received clone c)
    (hfile : u.file? received rel = some (data, executable)) (hexercise : ¬ Config.Covers c.extraExerciseFiles rel)
    (hstyle : e'.style = e.style)
    (hstudent : Config.Covers c.extraStudentFiles rel ∨ e'.isStudentSource ⟨.relative, rel⟩ = true ∧
      Undisturbed e.style c (u.file? received) (u.file? clone) rel data) :
    ∃ flag, lastFile? (packageLayers u params clone e received clone c) rel = some (data, flag) := by
  by_cases hcovers : Config.Covers c.extraStudentFiles rel
  · exact packageLayers_keep_extra hc hfile hcovers
  obtain ⟨hsource, hundisturbed⟩ := hstudent.resolve_left hcovers
  have hplace := sourcePlace_prefix hsource
  rw [hstyle] at hplace
  have htop : Layer.never ∉ topLayers u clone := by
    obtain ⟨first, hfirst⟩ := mergeLayers_top u e.style received clone clone (e.layoutOf c)
    unfold packageLayers at hlisted
    rw [hfirst, show topProject e.style clone clone = clone from ite_self _] at hlisted
    exact fun h => hlisted (List.mem_append_left _ (List.mem_append_right _ (List.mem_append_right _ h)))
  obtain ⟨first, rest, hmerge, hkeeps, l, hl, hsome⟩ :=
    mergeLayers_keep hu hc htop hfile hexercise hcovers hplace hundisturbed
  have hlayers : packageLayers u params clone e received clone c =
      (paramsLayer params :: environmentLayers u received clone environmentNames ++ first) ++
        (rest ++ overlayLayers u received (Path.sort c.extraStudentFiles)) := by
    unfold packageLayers
    rw [hmerge]
    simp only [List.append_assoc, List.cons_append]
  rw [hlayers]
  exact (hkeeps.append (keeps_extra hc hfile)).lastFile?_append ⟨l, List.mem_append_left _ hl, hsome⟩

/-! ### Packages without obstructions -/

variable {g : Session} {request : Request}

/-- The layers of a package. -/
def Packed.layers (parts : Packed g request) : List Layer :=
  packageLayers (withPackage g.scratch parts.fetched) request.params request.clone parts.ecosystem parts.project parts.tests
    parts.config

/-- No file that was copied to a package met a directory there. -/
def Packed.IsFlat (parts : Packed g request) : Prop :=
  ∀ l ∈ parts.layers, ∀ names, l.file? names ≠ none → parts.content names ≠ some .directory

/-- Whether a file met a directory is checked at the directories of the package. -/
theorem Packed.isFlat_of_listing (parts : Packed g request) (hf : parts.furnished.files.WellFormed)
    (h : ∀ names ∈ [] :: parts.furnished.files.listing (g.scratch ++ ["dest"]),
      parts.content names = some .directory → ∀ l ∈ parts.layers, l.file? names = none) : parts.IsFlat := by
  intro l hl names hfile hdir
  refine hfile (h names (List.mem_cons.2 (or_iff_not_imp_left.2 fun hne => ?_)) hdir l hl)
  refine (Files.mem_listing hf).2 ⟨hne, fun hnone => ?_⟩
  cases hnone.symm.trans hdir

end Handout.Submission

import Handout.Proofs.Archive.Failure
import Handout.Proofs.Submission.Pack

/-!
# How packaging fails

The tools report the failures of file operations, refused archives and configurations, and projects that are not found.
A packaging fails with nothing else, as long as nothing is met that is not translated into such a failure
(`Request.Orderly`): every question about a path can be answered, and what is decoded can be decoded.  The proof follows
the packaging; where a step succeeds, the next one starts from what it is known to leave (`isReported_of_pack`).
-/

namespace Handout.Submission

open Handout.Action Session

variable {s t u : Session} {d : Location} {p archive received clone tests : Path} {e : Ecosystem} {request : Request}
  {place : List String} {name : String}

/-! ### Copies -/

/-- A path that keeps away from the package, and of which it can be asked whether anything is there. -/
structure Askable (u : Session) (d : Location) (p : Path) : Prop where
  avoids : Avoids u p d
  answered : ∃ b, u.exists? p = .ok b

theorem copyMerge_reported (hu : u.Sound) (ha : Avoids u p d) (hz : p.hasZero = false)
    (hplace : ∀ c ∈ place, IsProper c) :
    Ensures (fun s => Within u s d) (copyMerge p (Location.path (d ++ place))) (fun _ s => Within u s d)
      fun e _ => e.isReported = true := by
  refine Ensures.during_reported (fun s hs => ?_) _ _
  refine (copyMerge_deposits hu hs ha hplace).mono (fun _ _ h => h.1) fun e t h => ?_
  rcases h.2.2 with ⟨hreported, -⟩ | ⟨-, hzero, -⟩
  · cases e with
    | system error => exact .inl trivial
    | _ => exact hreported.elim
  · cases hz.symm.trans hzero

private theorem hasZero_of_node? (h : (u.node? true p).isSome) : p.hasZero = false := by
  by_contra hzero
  unfold Session.node? at h
  rw [if_pos (by simpa using hzero)] at h
  cases h

private theorem pathExists_reported (hp : Askable u d p) :
    Ensures (fun s => Within u s d) (pathExists p)
      (fun b s => Within u s d ∧ b = (u.node? true p).isSome) fun e _ => e.isReported = true := by
  obtain ⟨b, hb⟩ := hp.answered
  refine Ensures.query fun s hs => ?_
  rw [← (hs.sameView hp.avoids).exists?, hb]
  exact ⟨hs, exists?_eq_ok hb⟩

/-- A path that can be asked for is copied if anything is there, or the failure is reported. -/
theorem copyIfExists_reported (hu : u.Sound) (hp : Askable u d p)
    (hplace : (u.node? true p).isSome → ∀ c ∈ place, IsProper c) :
    Ensures (fun s => Within u s d) (copyIfExists p (Location.path (d ++ place))) (fun _ s => Within u s d)
      fun e _ => e.isReported = true := by
  refine (pathExists_reported hp).bind fun b => Ensures.of_and fun hb => ?_
  cases b with
  | true => exact copyMerge_reported hu hp.avoids (hasZero_of_node? hb.symm) (hplace hb.symm)
  | false => exact Ensures.pure fun _ hs => hs

/-- A path is copied under its own name if anything is there, or the failure is reported. -/
private theorem copyIntoIfExists_reported (hu : u.Sound) (hp : Askable u d p) (hname : TellsPlace p.name) :
    Ensures (fun s => Within u s d) (do if ← pathExists p then copyInto p d.path) (fun _ s => Within u s d)
      fun e _ => e.isReported = true := by
  have hcopy := copyIfExists_reported hu hp (proper_place hname)
  unfold copyIfExists at hcopy
  rwa [copyInto_eq, join_ofString hname]

theorem overlay_reported (hu : u.Sound) {project : Path} {ps : List Path} (hinside : ∀ p ∈ ps, Config.IsInside p)
    (hps : ∀ p ∈ ps, Askable u d (project.join p)) :
    Ensures (fun s => Within u s d) (overlay project d.path ps) (fun _ s => Within u s d)
      fun e _ => e.isReported = true := by
  refine Ensures.forM (fun _ s => Within u s d) ?_
  rintro done p rest rfl
  have hmem : p ∈ done ++ p :: rest := by simp
  rw [join_of_inside (hinside p hmem) d.path]
  refine copyIfExists_reported hu (hps p hmem) fun hsome => ?_
  rw [join_of_inside (hinside p hmem)] at hsome
  exact proper_of_node? hsome (hinside p hmem).2

theorem gather_reported (hu : u.Sound) {project : Path} {ps : List Path} (hps : ∀ p ∈ ps, Askable u d (project.join p))
    (hname : ∀ p ∈ ps, TellsPlace (project.join p).name) :
    Ensures (fun s => Within u s d) (gather project d.path ps) (fun _ s => Within u s d)
      fun e _ => e.isReported = true := by
  refine Ensures.forM (fun _ s => Within u s d) ?_
  rintro done p rest rfl
  exact copyIntoIfExists_reported hu (hps p (by simp)) (hname p (by simp))

theorem copyTopFiles_reported (hu : u.Sound) {dir : Path} (ha : Avoids u dir d) (hz : dir.hasZero = false) :
    Ensures (fun s => Within u s d) (copyTopFiles dir d.path) (fun _ s => Within u s d)
      fun e _ => e.isReported = true := by
  have hfiles : Ensures (fun s => Within u s d) (during .list dir (filesIn dir))
      (fun files s => Within u s d ∧ ∀ q ∈ files, ∃ c, IsProper c ∧ q = dir.child c) fun e _ => e.isReported = true := by
    refine (onlyRefused_filesIn hz).during_looks (looks_filesIn dir) ?_ _ _
    intro s files hs hperform q hq
    obtain ⟨found, hfound, hmem⟩ := mem_filesIn hperform
    obtain ⟨c, hc, -, rfl⟩ := (hmem q).1 hq
    exact ⟨c, proper_of_names? hs.sound hfound hc, rfl⟩
  refine hfiles.bind fun files => Ensures.of_and fun hproper => Ensures.forM (fun _ s => Within u s d) ?_
  rintro done q rest rfl
  obtain ⟨c, hc, rfl⟩ := hproper q (by simp)
  rw [copyInto_child hc]
  exact copyMerge_reported hu (ha.child hc.plain) (Path.hasZero_child hz hc.noZero) (by simpa using hc)

/-! ### Merges -/

/-- The projects from which a package is put together have names of permitted length, and so has everything that links
stand for. -/
structure Legible (u : Session) (received clone tests : Path) : Prop where
  links : u.files.HasShortLinks
  shortReceived : received.IsShort
  shortClone : clone.IsShort
  shortTests : tests.IsShort
  cloneZero : clone.hasZero = false
  testsZero : tests.hasZero = false

/-- An entry that may be there can be asked for. -/
private theorem askable_append (hlinks : u.files.HasShortLinks) (ha : Avoids u p d) (hp : p.IsShort)
    (hplace : ∀ c ∈ place, IsProper c) : Askable u d (p.append place) :=
  ⟨ha.append fun c hc => (hplace c hc).plain, exists?_of_short hlinks (hp.append fun c hc => (hplace c hc).short)⟩

theorem merge_reported (hu : u.Sound) {style : PackagingStyle} {layout : PackagingLayout}
    (h : Mergeable u u d style received received clone tests layout) (hlegible : Legible u received clone tests)
    (hlayout : ∀ p ∈ layout.studentPaths ++ layout.exercisePaths, p.IsShort) :
    Ensures (fun s => Within u s d) (merge style ⟨received, clone, tests, d.path⟩ layout) (fun _ s => Within u s d)
      fun e _ => e.isReported = true := by
  have hstudent : ∀ p ∈ layout.studentPaths, Config.IsInside p ∧ Askable u d (received.join p) := fun p hp => by
    have hinside := h.inside p (List.mem_append_left _ hp)
    refine ⟨hinside, (h.student p hp).left, ?_⟩
    rw [join_of_inside hinside]
    exact exists?_of_short hlegible.links (hlegible.shortReceived.append (hlayout p (List.mem_append_left _ hp)))
  have hexercise : ∀ p ∈ layout.exercisePaths, Config.IsInside p ∧ Askable u d (tests.join p) := fun p hp => by
    have hinside := h.inside p (List.mem_append_right _ hp)
    rw [join_of_inside hinside]
    exact ⟨hinside, h.ofTests.left.append (plain_of_isName hinside.2),
      exists?_of_short hlegible.links (hlegible.shortTests.append (hlayout p (List.mem_append_right _ hp)))⟩
  have hclone : ∀ place, (∀ c ∈ place, IsProper c) →
      Ensures (fun s => Within u s d) (copyIfExists (clone.append place) (Location.path (d ++ place)))
        (fun _ s => Within u s d) fun e _ => e.isReported = true := fun place hplace =>
    copyIfExists_reported hu (askable_append hlegible.links h.ofClone.left hlegible.shortClone hplace) fun _ => hplace
  have htests : ∀ place, (∀ c ∈ place, IsProper c) →
      Ensures (fun s => Within u s d) (copyIfExists (tests.append place) (Location.path (d ++ place)))
        (fun _ s => Within u s d) fun e _ => e.isReported = true := fun place hplace =>
    copyIfExists_reported hu (askable_append hlegible.links h.ofTests.left hlegible.shortTests hplace) fun _ => hplace
  have hoverlay := overlay_reported hu (fun p hp => (hstudent p hp).1) fun p hp => (hstudent p hp).2
  cases style with
  | maven =>
    have hpart : Path.ofString "src/main" = ⟨.relative, ["src", "main"]⟩ ∧
        Path.ofString "src/test" = ⟨.relative, ["src", "test"]⟩ := by decide +kernel
    unfold merge mergeMaven
    dsimp only
    rw [hpart.1, hpart.2, copyInto_child (by decide)]
    refine (copyMerge_reported hu (h.ofClone.left.child (by decide)) (Path.hasZero_child hlegible.cloneZero (by decide))
      (by decide)).bind fun _ => ?_
    refine (hclone ["src", "main"] (by decide)).bind fun _ => (htests ["src", "test"] (by decide)).bind fun _ => ?_
    refine hoverlay.bind fun _ => ?_
    refine (overlay_reported hu (fun p hp => (hexercise p hp).1) fun p hp => (hexercise p hp).2).bind fun _ => ?_
    exact copyTopFiles_reported hu h.ofClone.left hlegible.cloneZero
  | make =>
    refine (hclone ["src"] (by decide)).bind fun _ => (hclone ["test"] (by decide)).bind fun _ => ?_
    exact hoverlay.bind fun _ => copyTopFiles_reported hu h.ofTests.left hlegible.testsZero
  | generic =>
    refine (hclone ["lib"] (by decide)).bind fun _ => ?_
    refine (gather_reported hu (fun p hp => (hstudent p hp).2) fun p hp => (h.studentName rfl p hp).2).bind fun _ => ?_
    refine (gather_reported hu (fun p hp => (hexercise p hp).2) (h.exerciseName rfl)).bind fun _ => ?_
    exact copyTopFiles_reported hu h.ofClone.left hlegible.cloneZero

/-! ### Filling the package -/

/-- What a development environment keeps is copied from the first project that has it, or the failure is reported. -/
theorem copyEnvironment_reported (hu : u.Sound) (hlegible : Legible u received clone tests)
    (hreceived : Avoids u (received.child name) d) (hclone : Avoids u clone d) (hname : IsProper name) :
    Ensures (fun s => Within u s d) (copyEnvironment d.path name [received, clone]) (fun _ s => Within u s d)
      fun e _ => e.isReported = true := by
  have hplace : ∀ c ∈ [name], IsProper c := by simpa using hname
  have hfirst : Askable u d (received.child name) :=
    ⟨hreceived, exists?_of_short hlegible.links (hlegible.shortReceived.append fun c hc => (hplace c hc).short)⟩
  have hsecond := askable_append hlegible.links hclone hlegible.shortClone hplace
  unfold copyEnvironment copyEnvironment copyEnvironment
  refine (pathExists_reported hfirst).bind fun b => Ensures.of_and fun hb => ?_
  cases b with
  | true =>
    rw [if_pos rfl, copyInto_child hname]
    exact copyMerge_reported hu hreceived (hasZero_of_node? hb.symm) hplace
  | false =>
    refine copyIntoIfExists_reported hu hsecond ?_
    rw [Path.name_child]
    exact .inr hname.toIsName

/-- The configuration of a project is loaded, with paths of names of permitted length, or the failure is reported. -/
structure Configured (u : Session) (project : Path) : Prop where
  reported : ∀ e, ((Config.load project).perform u).1 = .error e → e.isReported = true
  short : ∀ c, ((Config.load project).perform u).1 = .ok c → ∀ p ∈ c.extraStudentFiles ++ c.extraExerciseFiles, p.IsShort

private theorem short_defaults (e : Ecosystem) : ∀ p ∈ e.defaultStudentPaths ++ e.defaultExercisePaths, p.IsShort := by
  cases e <;> decide +kernel

private theorem short_layout {c : Config} (hc : ∀ p ∈ c.extraStudentFiles ++ c.extraExerciseFiles, p.IsShort) :
    ∀ p ∈ (e.layoutOf c).studentPaths ++ (e.layoutOf c).exercisePaths, p.IsShort :=
  Ecosystem.forall_mem_layoutOf (short_defaults e) hc

private theorem load_reported (hconfigured : Configured u clone) (ha : Avoids u clone d) :
    Ensures (fun s => Within u s d) (Config.load clone)
      (fun c s => Within u s d ∧ ((Config.load clone).perform u).1 = .ok c) fun e _ => e.isReported = true := by
  intro s hs
  obtain ⟨-, hlooks, hsame⟩ := agrees_load (hs.sameView ha)
  have hreported := hconfigured.reported
  rw [hsame] at hreported
  generalize (Config.load clone).perform s = o at hlooks hsame hreported ⊢
  obtain ⟨r, t⟩ := o
  obtain rfl : t = s := hlooks
  cases r with
  | ok c => exact ⟨hs, hsame⟩
  | error e => exact hreported e rfl

/-- A package is filled, or the failure is reported. -/
theorem fill_reported (hu : u.Sound) (h : Fillable u u d clone e received received tests)
    (hlegible : Legible u received clone tests) (hconfigured : Configured u clone) (params : Params) :
    Ensures (fun s => Within u s d ∧ Stacked [] (s.files.content d)) (fill params clone e received tests d.path)
      (fun _ s => Within u s d) fun e _ => e.isReported = true := by
  have hparams : Ensures (fun s => Within u s d ∧ Stacked [] (s.files.content d))
      (writeParams params (d.path.child paramsFileName)) (fun _ s => Within u s d) fun e _ => e.isReported = true := by
    intro s hs
    obtain ⟨t, hperform, ht, -⟩ := perform_writeParams params hs.1 hs.2
    rw [hperform]
    exact ht
  have henvironment : Ensures (fun s => Within u s d)
      (environmentNames.forM fun name => copyEnvironment d.path name [received, clone]) (fun _ s => Within u s d)
      fun e _ => e.isReported = true := by
    refine Ensures.forM (fun _ s => Within u s d) fun done name rest hdone => ?_
    have hname : name ∈ environmentNames := by
      rw [hdone]
      simp
    exact copyEnvironment_reported hu hlegible (h.environment name hname).left h.ofClone.left
      (proper_environmentNames name hname)
  have hload := load_reported hconfigured h.ofClone.left
  unfold fill
  refine hparams.bind fun _ => henvironment.bind fun _ => ?_
  simp only [Ecosystem.layout, bind_assoc, pure_bind]
  refine hload.bind fun c => Ensures.of_and fun hc => ?_
  have hmergeable := h.mergeable c hc
  have hshort := short_layout (e := e) (hconfigured.short c hc)
  refine Ensures.bind (M := fun _ s => Within u s d) (Ensures.note fun _ record hs => hs.log record) fun _ => ?_
  refine (merge_reported hu hmergeable hlegible hshort).bind fun _ => hload.bind fun c' => Ensures.of_and fun hc' => ?_
  obtain rfl := Except.ok.inj (hc.symm.trans hc')
  refine overlay_reported hu (fun p hp => ?_) fun p hp => ?_
  · exact hmergeable.inside p (List.mem_append_left _ (mem_studentPaths hp))
  · have hp := mem_studentPaths (e := e) hp
    refine ⟨(hmergeable.student p hp).left, ?_⟩
    rw [join_of_inside (hmergeable.inside p (List.mem_append_left _ hp))]
    exact exists?_of_short hlegible.links (hlegible.shortReceived.append (hshort p (List.mem_append_left _ hp)))

/-! ### Packaging -/

/-- Nothing is met in a packaging that is not reported: names have a permitted length and no zero character, archives
and the configuration of the clone are read or refused, it can be asked for this configuration, and all entries of a zip
archive can be named. -/
structure Request.Orderly (request : Request) (s : Session) : Prop where
  submission : Avoids s request.submission s.scratch
  links : s.files.HasShortLinks
  short : request.clone.IsShort
  noZero : ∀ p ∈ request.submission :: request.output :: request.clone :: request.stub.toList, p.hasZero = false
  archives : ∀ p ∈ request.submission :: request.stub.toList, ∀ data, s.content? p.written = .ok data →
    Archive.isOrderly data = true
  unlocked : request.clone ∉ s.locked
  configuration : ∀ data, s.content? (request.clone.child Config.fileName).written = .ok data →
    Config.isOrderly data = true
  extras : ∀ c, ((Config.load request.clone).perform s).1 = .ok c → ∀ p ∈ c.extraStudentFiles ++ c.extraExerciseFiles,
    p.IsShort
  top : request.asZip = true → ∀ name, request.top = some name → Archive.zipName? name ≠ none

theorem Request.Orderly.configured (h : request.Orderly s) : Configured s request.clone where
  reported e he := by
    have hload := Config.load_reported h.links h.short (h.noZero _ (by simp)) h.unlocked h.configuration s rfl
    generalize (Config.load request.clone).perform s = o at he hload
    obtain ⟨r, t⟩ := o
    dsimp only at he
    subst he
    exact hload
  short := h.extras

/-- An orderly archive is extracted into the temporary directory and a project is found in it, or the failure is
reported. -/
private theorem fetch_reported (hs : s.Ready) (hlocked : ∀ rel, Location.path (s.scratch ++ rel) ∉ s.locked)
    (hname : IsProper name) (ha : Avoids s archive s.scratch) (hz : archive.hasZero = false)
    (hdata : ∀ data, s.content? archive.written = .ok data → Archive.isOrderly data = true) :
    Ensures (fun t => Within s.opened t s.scratch)
      (do
        Archive.extract archive (s.scratch.path.child name)
        Archive.findProject archive (s.scratch.path.child name))
      (fun root t => Within s.opened t s.scratch ∧ IsDirectoryIn t.files (s.scratch ++ [name]) root)
      fun e _ => e.isReported = true := by
  have hscratch : (s.scratch.path.append [name]).hasZero = false :=
    Path.hasZero_child (hasZero_path hs.opened.sound (by rw [hs.opened.directory]; exact Option.some_ne_none _)) hname.noZero
  have hnamed : ∀ c ∈ [name], IsName c := by simpa using hname.toIsName
  refine (Archive.extract_reported (unpacks_within s) (fun _ _ _ _ => trivial) hnamed hscratch hz
    fun t data ht hread => hdata data ((ha.sameView hs ht).content?.trans hread)).bind fun _ => ?_
  refine Ensures.of_each fun t ht => ?_
  refine (Archive.findProject_reported archive ((listable_scratch ht.1 hlocked).below ht.2)).mono (fun _ hu => hu) ?_
    fun _ _ he => he
  rintro root _ ⟨rfl, hroot⟩
  exact ⟨ht.1, hroot⟩

/-- The ecosystem of a project in the temporary directory is found out, or the failure is reported. -/
private theorem get_reported (hlocked : ∀ rel, Location.path (s.scratch ++ rel) ∉ s.locked) (root : Path) :
    Ensures (fun t => Within s.opened t s.scratch ∧ IsDirectoryIn t.files (s.scratch ++ [name]) root)
      (Ecosystem.get root) (fun _ _ => True) fun e _ => e.isReported = true := by
  rintro t ⟨ht, rel, rfl, hd⟩
  rw [List.append_assoc] at hd ⊢
  unfold Ecosystem.get
  rw [perform_bind_ok (Ecosystem.perform_find? ((listable_scratch ht hlocked).below hd).listed)]
  split
  · trivial
  · rfl

/-- A submission is received, or the failure is reported. -/
theorem receive_reported (hrequest : request.Apart s) (horderly : request.Orderly s) :
    Ensures (fun t => t = s) (receive request) (fun r u => Received s r.1 u) fun e _ => e.isReported = true := by
  refine (receive_ensures hrequest.ready request).failing ?_
  have hfetch := fetch_reported hrequest.ready hrequest.unlocked (by decide : IsProper "received") horderly.submission
    (horderly.noZero _ (by simp)) (horderly.archives _ (by simp))
  have hend : ∀ (root : Path) (e : Ecosystem), Ensures (fun _ => True)
      (do
        note .info .submissionPackaging s!"submission is a {e.name} project"
        return (root, e)) (fun _ _ => True) fun e _ => e.isReported = true := fun root e =>
    Ensures.bind (M := fun _ _ => True) (Ensures.note fun _ _ _ => trivial) fun _ => Ensures.pure fun _ _ => trivial
  have hrest := hfetch.bind fun root => (get_reported hrequest.unlocked root).bind fun e => hend root e
  rintro t rfl
  have hstart := hrequest.ready.opened.log
    ⟨.info, .submissionPackaging, s!"preparing submission {request.submission.toString}"⟩
  have hreceived := hrest _ hstart
  simp only [bind_assoc] at hreceived
  unfold receive
  rw [perform_bind_ok (perform_note ..), perform_bind_ok (perform_get _), perform_bind_ok (perform_edit ..)]
  exact hreceived

/-- The tests are fetched, or the failure is reported. -/
private theorem testsOf_reported (hrequest : request.Apart s) (horderly : request.Orderly s) :
    Ensures (fun t => Within s.opened t s.scratch) (testsOf request s.scratch.path) (fun _ _ => True)
      fun e _ => e.isReported = true := by
  unfold testsOf
  cases hstub : request.stub with
  | none => exact Ensures.pure fun _ _ => trivial
  | some archive =>
    exact (fetch_reported hrequest.ready hrequest.unlocked (by decide : IsProper "stub") (hrequest.stub archive hstub)
      (horderly.noZero archive (by simp [hstub])) (horderly.archives archive (by simp [hstub]))).mono (fun _ ht => ht)
      (fun _ _ _ => trivial) fun _ _ he => he

/-- Links outside the temporary directory are those from before, and there are none in it. -/
private theorem shortLinks_within (hs : s.Ready) (h : s.files.HasShortLinks) (ht : Within s.opened t s.scratch) :
    t.files.HasShortLinks := by
  intro loc target hlink
  have hloc : ¬ s.scratch <+: loc := fun hloc => ht.ne_link hloc target hlink
  rw [outside_opened hs ht hloc] at hlink
  exact h loc target hlink

private theorem short_of_exists {x : Location} (hs : s.Sound) (hn : s.files.get? x ≠ none) : x.path.IsShort :=
  fun _ hc => (proper_of_exists hs hn hc).short

/-- The projects can be asked for what they hold when the directory of the package has been made. -/
private theorem legible {package : Content} (hrequest : request.Apart s) (horderly : request.Orderly s)
    (hu : Received s p u) (h : Prepared s u u package t t) (htests : HoldsTests s request t tests) :
    Legible t p request.clone tests := by
  have hproject : p.IsShort := by
    obtain ⟨rel, rfl, hd⟩ := hu.project
    exact short_of_exists hu.within.sound (by rw [hd]; exact Option.some_ne_none _)
  have hclone : request.clone.IsShort ∧ request.clone.hasZero = false := ⟨horderly.short, horderly.noZero _ (by simp)⟩
  have hmade : tests.IsShort ∧ tests.hasZero = false := by
    unfold HoldsTests at htests
    cases hstub : request.stub with
    | none =>
      rw [hstub] at htests
      rwa [htests]
    | some archive =>
      rw [hstub] at htests
      obtain ⟨rel, rfl, hd⟩ := htests
      have hn : t.files.get? (s.scratch ++ ["stub"] ++ rel) ≠ none := by
        rw [hd]
        exact Option.some_ne_none _
      exact ⟨short_of_exists h.left.sound hn, hasZero_path h.left.sound hn⟩
  exact ⟨shortLinks_within hrequest.ready horderly.links h.left, hproject, hclone.1, hmade.1, hclone.2, hmade.2⟩

/-- The package is furnished, or the failure is reported. -/
theorem furnish_reported (hrequest : request.Apart s) (horderly : request.Orderly s) (hclone : request.NamesClone s e)
    (hu : Received s p u) :
    Ensures (fun t => t = u) (furnish request s.scratch.path (p, e)) (fun _ t => Furnished s t t)
      fun e _ => e.isReported = true := by
  have hfurnished := (furnish_relates hrequest hu hu (.refl ..) hclone).ensures (.start hu hu)
  refine hfurnished.failing ?_
  unfold furnish
  refine ((testsOf_reported hrequest horderly).perform hu.within).bind fun tests => ?_
  intro t hfetch
  obtain ⟨hfetched, hmade, htests⟩ := prepared_of_perform hrequest.ready hrequest.unlocked hrequest.stub hu hfetch
  rw [show s.scratch.path.child "dest" = Location.path (s.scratch ++ ["dest"]) from rfl,
    perform_bind_ok (perform_makePackage hfetched.1.left hfetched.1.left_package)]
  generalize withPackage s.scratch t = a at hmade htests
  have hdirectory : a.files.get? (s.scratch ++ ["dest"]) = some .directory := by
    have hroot := congrFun hmade.left_package []
    unfold Files.content at hroot
    rwa [List.append_nil] at hroot
  have hstart : Within a a (s.scratch ++ ["dest"]) := .refl hmade.left.sound hdirectory fun rel target => by
    rw [List.append_assoc]
    exact hmade.left.noLink _ target
  have hconfigured : Configured a request.clone := by
    have hload := (agrees_load (hrequest.clone.sameView hrequest.ready hmade.left)).same
    exact ⟨hload ▸ horderly.configured.reported, hload ▸ horderly.configured.short⟩
  refine (fill_reported hmade.left.sound (fillable hrequest hmade hu hu htests (.refl ..) hclone)
    (legible hrequest horderly hu hmade htests) hconfigured request.params a ⟨hstart, ?_⟩).mono (fun _ _ _ => trivial)
    fun _ _ he => he
  rw [hmade.left_package]
  exact .bare

/-- A session in a directory `w` with a submission and a clone whose configuration has some data. -/
def sampleConfigured (data : Bytes) : Session where
  files := ⟨[(["w"], .directory), (["w", "c"], .directory), (["w", "c", "pom.xml"], .file [] false),
    (["w", "c", ".tmcproject.yml"], .file data false),
    (["w", "s.zip"], .file (Archive.encode .zip [⟨"pom.xml", .file [] false⟩]) false)]⟩
  workingDir := ["w"]
  scratch := ["t"]

/-- The packaging of the submission. -/
def sampleConfiguration : Request :=
  { submission := ⟨.relative, ["s.zip"]⟩, output := ⟨.relative, ["o"]⟩, clone := ⟨.relative, ["c"]⟩, asZip := true }

end Handout.Submission

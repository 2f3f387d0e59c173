import Handout.Proofs.Project.Style
import Handout.Proofs.Submission.Arrival
import Handout.Proofs.Submission.Student

/-!
# Student files reach the package

A student compresses a project, and the archive is packaged with a clone that has the same configuration.  The received
project is recognized in the same style (`Packed.style_eq`), and a file of the student is in it as it was sent; so it is
in the package (`student_file_of_package`) unless in the common style another part of the same name has a file for its
place, or in both styles but that of Maven a file at the top of the clone has its name (`Undisturbed`).
-/

namespace Handout

open Handout.Action Session

variable {s g t u : Session} {project output p : Path} {policy : Policy} {d : Location} {e : Ecosystem} {c : Config}
  {rel names : List String} {data : Bytes} {executable : Bool}

/-- The files below a directory without links. -/
theorem Session.Listable.file?_eq_some (h : s.Listable d) :
    s.file? d.path names = some (data, executable) ↔ s.files.content d names = some (.file data executable) := by
  have hnil : ∀ c ∈ ([] : List String), IsPlain c := fun c hc => absurd hc List.not_mem_nil
  have hoffers := h.offers hnil
  rw [List.append_nil] at hoffers
  unfold Session.file?
  rw [hoffers]
  dsimp only
  cases s.files.content d names with
  | none => simp
  | some node => cases node <;> simp [Offer.ofNode]

namespace Policy

/-- What makes a path a student file. -/
theorem cases_of_isStudent (h : IsStudent e c rel) : ¬ Config.Covers c.extraExerciseFiles rel ∧
    (Config.Covers c.extraStudentFiles rel ∨ e.isStudentSource ⟨.relative, rel⟩ = true) := by
  have hverdict := h.2
  unfold verdict at hverdict
  rw [if_neg fun h => Bool.false_ne_true h.1] at hverdict
  split at hverdict
  · cases hverdict
  · rename_i hexercise
    split at hverdict
    · rename_i hstudent
      exact ⟨fun hcovers => hexercise (.inl hcovers), hstudent⟩
    · cases hverdict

end Policy

namespace Submission

/-- A file that is submitted and is not at the top is a file of the student. -/
theorem IsSubmitted.isStudentAt {f : Files} (hf : f.WellFormed) (h : IsSubmitted e c (f.content d) rel)
    (hfile : f.content d rel = some (.file data executable)) (hlength : rel.length ≠ 1) :
    IsStudentAt e c (f.content d) rel := by
  rcases h with ⟨-, htop⟩ | hstudent | ⟨-, file, hstudent, ⟨rest, rfl⟩, hne⟩
  · exact absurd htop hlength
  · exact hstudent
  · have hbelow := IsSubmitted.exists (e := e) (c := c) hf (.inr (.inl hstudent))
    rw [← List.append_assoc] at hbelow
    have hdir := hf.ancestor hbelow fun hrest => hne (by rw [hrest, List.append_nil])
    cases hfile.symm.trans hdir

/-- A project that a student can submit, with a policy that has not been used. -/
structure Submittable (s : Session) (policy : Policy) (project : Path) (d : Location) (e : Ecosystem) (c : Config) : Prop
    extends s.Listed project d where
  kind : policy.kind = .ecosystem e
  recognized : ((Ecosystem.find? project).perform s).1 = .ok (some e)
  fresh : s.loaded.lookup policy.number = none
  config : ((Config.load policy.configParent).perform s).1 = .ok c
  noBackslash : NoBackslash e c (s.files.content d) d

theorem Submittable.inside (h : Submittable s policy project d e c) : c.Inside := Config.inside_of_load h.config

theorem Submittable.policyConfig (h : Submittable s policy project d e c) : (policy.config.perform s).1 = .ok c := by
  rw [Policy.perform_config_of_new h.fresh, h.config]

/-- What the policy says of a file. -/
theorem Submittable.isStudent (h : Submittable s policy project d e c) (hn : s.files.get? (d ++ rel) ≠ none)
    (hstudent : ((policy.isStudentFile (project.append rel) project none).perform s).1 = .ok true) :
    Policy.IsStudent e c rel := by
  have hplain : ∀ x ∈ rel, IsPlain x := fun x hx => (h.sound.files.proper_of_mem hn hx).plain
  have hrooted : ∀ t, Loading s t → t.Rooted project d ∧ t.files.get? (d ++ rel) ≠ none := fun t ht =>
    ⟨(ht.listed h.toListed).rooted, by rwa [ht.files]⟩
  have hdecided := Policy.isStudentFile_ensures h.kind (fun t loaded ht => ht.load loaded) hrooted h.inside hplain
  rcases hrun : (policy.isStudentFile (project.append rel) project none).perform s with ⟨r, t⟩
  rw [hrun] at hstudent
  obtain rfl : r = .ok true := hstudent
  exact of_decide_eq_true (hdecided.ends ⟨.refl s, h.policyConfig⟩ hrun).2.symm

/-! ### What was received -/

/-- The archive with some entries is handed in, and its members are read back as they were written. -/
structure HandedIn (g : Session) (submission : Path) (es : List Archive.Entry) (l : Archive.Listing) : Prop where
  content : g.content? submission.written = .ok (Archive.encode .zip es)
  read : Archive.read? (Archive.encode .zip es) = .ok (some (.zip, l))
  back : Archive.ReadsBack es l
  avoids : Avoids g submission g.scratch

variable {request : Request} {l : Archive.Listing}

/-- The directory of a submitted project is the root of the project that was received. -/
def Packed.FindsRoot (parts : Packed g request) (d : Location) : Prop :=
  parts.project = Location.path (g.scratch ++ "received" :: d.getLast?.toList)

/-- The received project of a submission. -/
structure Arrived (s g u : Session) (request : Request) (d : Location) (l : Archive.Listing) : Prop where
  listable : u.Listable (g.scratch ++ "received" :: d.getLast?.toList)
  content : ∀ names, u.files.content (g.scratch ++ "received" :: d.getLast?.toList) names =
    Archive.outcome request.submission Archive.bare l.members (d.getLast?.toList ++ names)

theorem Packed.arrived (parts : Packed g request) (hrequest : request.Apart g)
    (hg : HandedIn g request.submission (submissionEntries project e c s.files d) l) (hroot : parts.FindsRoot d) :
    Arrived s g parts.received request d l ∧
      ((Ecosystem.find? parts.project).perform parts.received).1 = .ok (some parts.ecosystem) := by
  obtain ⟨hcontent, hfind⟩ := receive_outcome hrequest.ready hg.avoids hg.content hg.read parts.receive_eq
  have hu := received_of_perform hrequest.ready parts.receive_eq
  have hdir : parts.received.files.get? (g.scratch ++ "received" :: d.getLast?.toList) = some .directory := by
    obtain ⟨rel, hproject, hd⟩ := hu.project_path
    have hparts : g.scratch ++ "received" :: d.getLast?.toList = g.scratch ++ "received" :: rel :=
      congrArg Path.parts (hroot.symm.trans hproject)
    rwa [hparts]
  refine ⟨⟨(listable_scratch hu.within hrequest.unlocked).below hdir, fun names => ?_⟩, hfind⟩
  rw [← hcontent]
  unfold Files.content
  rw [List.append_assoc, List.append_assoc]
  rfl

/-- A file of the received project was submitted. -/
theorem Arrived.submitted (h : Arrived s g u request d l) (hs : Submittable s policy project d e c)
    (hback : Archive.ReadsBack (submissionEntries project e c s.files d) l)
    (hfile : u.files.content (g.scratch ++ "received" :: d.getLast?.toList) rel = some (.file data executable)) :
    IsSubmitted e c (s.files.content d) rel ∧ ∃ flag, s.files.content d rel = some (.file data flag) := by
  rw [h.content] at hfile
  exact (submitted_of_outcome hs.toListed hs.noBackslash hback hfile).2

/-- A file that was submitted and is not noise is in the received project. -/
theorem Arrived.received (h : Arrived s g u request d l) (hs : Submittable s policy project d e c)
    (hback : Archive.ReadsBack (submissionEntries project e c s.files d) l)
    (hsubmitted : IsSubmitted e c (s.files.content d) rel)
    (hfile : s.files.content d rel = some (.file data executable))
    (hquiet : ∀ x ∈ d.getLast?.toList ++ rel, x ∉ Archive.noiseNames) :
    u.files.content (g.scratch ++ "received" :: d.getLast?.toList) rel = some (.file data false) := by
  rw [h.content]
  exact outcome_of_submitted hs.toListed hs.noBackslash hback hsubmitted hfile hquiet

/-- The received project is packaged in the style of the project. -/
theorem Packed.style_eq (parts : Packed g request) (hs : Submittable s policy project d e c) (hrequest : request.Apart g)
    (hg : HandedIn g request.submission (submissionEntries project e c s.files d) l) (hroot : parts.FindsRoot d)
    (hquiet : ∀ x ∈ d.getLast?.toList, x ∉ Archive.noiseNames) : e.style = parts.ecosystem.style := by
  obtain ⟨harrived, hfind⟩ := parts.arrived hrequest hg hroot
  rw [hroot] at hfind
  have hmark : ∀ name ∈ ["pom.xml", "build.xml", "Makefile"], isFileNode (s.files.content d [name]) =
      isFileNode (parts.received.files.content (g.scratch ++ "received" :: d.getLast?.toList) [name]) := by
    intro name hname
    have hclean : ∀ name ∈ ["pom.xml", "build.xml", "Makefile"], name ∉ Archive.noiseNames := by decide
    have hisFile : ∀ {node : Option Node}, isFileNode node = true ↔ ∃ data executable, node = some (.file data executable) := by
      intro node
      rcases node with _ | (_ | _ | _) <;> simp [isFileNode]
    rw [Bool.eq_iff_iff, hisFile, hisFile]
    constructor
    · rintro ⟨data, executable, hfile⟩
      refine ⟨data, false, harrived.received hs hg.back (.inl ⟨hisFile.2 ⟨_, _, hfile⟩, rfl⟩) hfile fun x hx => ?_⟩
      rcases List.mem_append.1 hx with hx | hx
      · exact hquiet x hx
      · rw [List.mem_singleton.1 hx]
        exact hclean name hname
    · rintro ⟨data, executable, hfile⟩
      obtain ⟨-, flag, hfile⟩ := harrived.submitted hs hg.back hfile
      exact ⟨data, flag, hfile⟩
  rw [Ecosystem.style_of_find? hs.toListed hs.recognized, Ecosystem.style_of_find? harrived.listable.listed hfind]
  unfold Ecosystem.styleOf
  rw [hmark "pom.xml" (by simp), hmark "build.xml" (by simp), hmark "Makefile" (by simp)]

/-! ### What is packaged -/

/-- The student's file at some names. -/
def studentFile? (e : Ecosystem) (c : Config) (content : Content) (names : List String) : Option (Bytes × Bool) :=
  match content names with
  | some (.file data executable) => if Policy.IsStudent e c names then some (data, executable) else none
  | _ => none

/-- Where nothing else of a project or the clone disturbs a source, nothing of what was received does. -/
theorem Arrived.undisturbed (h : Arrived s g u request d l) (hs : Submittable s policy project d e c)
    (hback : Archive.ReadsBack (submissionEntries project e c s.files d) l) {style : PackagingStyle}
    {received : List String → Option (Bytes × Bool)} {clone : List String → Option (Bytes × Bool)}
    (hreceived : ∀ names data executable, received names = some (data, executable) →
      u.files.content (g.scratch ++ "received" :: d.getLast?.toList) names = some (.file data executable))
    (hcovers : ¬ Config.Covers c.extraStudentFiles rel)
    (hundisturbed : Undisturbed style c (studentFile? e c (s.files.content d)) clone rel data) :
    Undisturbed style c received clone rel data := by
  refine ⟨hundisturbed.top, fun hstyle q hq rest hrel file hfile => ?_, hundisturbed.exercise⟩
  obtain ⟨data', executable⟩ := file
  obtain ⟨hsubmitted, flag, hcontent⟩ := h.submitted hs hback (hreceived _ _ _ hfile)
  have hlength : (q.parts ++ rest).length ≠ 1 := by
    intro hlength
    refine hcovers ⟨q, hq, ?_⟩
    obtain ⟨x, hx⟩ := List.length_eq_one_iff.1 hlength
    rcases List.append_eq_singleton_iff.1 hx with ⟨hnil, -⟩ | ⟨hparts, rfl⟩
    · rw [hnil]
      exact List.nil_prefix
    · rw [hrel, show q.name = x by simp [Path.name, hparts], hparts]
  have hstudent := (hsubmitted.isStudentAt hs.sound.files hcontent hlength).2
  refine hundisturbed.student hstyle q hq rest hrel (data', flag) ?_
  unfold studentFile?
  rw [hcontent]
  exact if_pos hstudent

/-- A student's file is packaged as it was when the project was compressed. -/
theorem student_file_of_package (hs : Submittable s policy project d e c)
    (hfree : s.node? false (output.addSuffix ".tmp") = none)
    (hcompress : (compress policy project output).perform s = (.ok (), t))
    (hfile : s.files.content d rel = some (.file data executable))
    (hstudent : ((policy.isStudentFile (project.append rel) project none).perform s).1 = .ok true)
    (hquiet : ∀ x ∈ d.getLast?.toList ++ rel, x ∉ Archive.noiseNames) :
    let es := submissionEntries project e c s.files d
    ReplacedBy s output (Archive.encode .zip es) t.files ∧
    ∀ g request l v, HandedIn g request.submission es l → request.stub = none → request.Apart g → request.Writable g →
      ((Config.load request.clone).perform g).1 = .ok c → (pack request).perform g = (.ok (), v) →
        ∃ parts : Packed g request, request.Written g v parts.content ∧
          (parts.FindsRoot d → parts.IsFlat →
            (Config.Covers c.extraStudentFiles rel ∨
              Undisturbed e.style c (studentFile? e c (s.files.content d)) (g.file? request.clone) rel data) →
            ∃ flag, parts.content rel = some (.file data flag)) := by
  intro es
  refine ⟨compress_written hs.toListed hs.kind hs.policyConfig hs.inside hfree hcompress, ?_⟩
  intro g request l v hg hstub hrequest hwritable hload hpack
  have hn : s.files.get? (d ++ rel) ≠ none := by
    rw [show s.files.get? (d ++ rel) = _ from hfile]
    exact Option.some_ne_none _
  have hisStudent := hs.isStudent hn hstudent
  obtain ⟨hexercise, hsource⟩ := Policy.cases_of_isStudent hisStudent
  have hclone : ∀ e, request.NamesClone g e := by
    intro e' c' hc' _ hhere
    obtain rfl := Except.ok.inj (hload.symm.trans hc')
    have hdefault : Path.here ∉ e'.defaultExercisePaths := by cases e' <;> decide +kernel
    unfold Ecosystem.layoutOf at hhere
    rw [List.mem_eraseDups, List.mem_append] at hhere
    exact absurd ⟨Path.here, hhere.resolve_left hdefault, List.nil_prefix⟩ hexercise
  obtain ⟨parts, hwritten⟩ := pack_written hrequest hwritable hclone hpack
  obtain rfl := Except.ok.inj (hload.symm.trans parts.load_eq)
  refine ⟨parts, hwritten, fun hroot hflat hundisturbed => ?_⟩
  obtain ⟨harrived, -⟩ := parts.arrived hrequest hg hroot
  have hstyle := parts.style_eq hs hrequest hg hroot fun x hx => hquiet x (List.mem_append_left _ hx)
  obtain ⟨hsound, hoffersClone, hoffersProject, -⟩ := parts.offers_eq hrequest
  have hreceived : ∀ names data executable,
      (withPackage g.scratch parts.fetched).file? parts.project names = some (data, executable) ↔
        parts.received.files.content (g.scratch ++ "received" :: d.getLast?.toList) names = some (.file data executable) := by
    intro names data executable
    rw [← harrived.listable.file?_eq_some, ← hroot]
    unfold Session.file?
    rw [hoffersProject]
  have hfromClone : (withPackage g.scratch parts.fetched).file? request.clone = g.file? request.clone := by
    unfold Session.file?
    rw [hoffersClone]
  have hsent := (hreceived rel data false).2
    (harrived.received hs hg.back (.inr (.inl ⟨by rw [hfile]; rfl, hisStudent⟩)) hfile hquiet)
  have hlast := parts.stacked
  have hlisted := hlast.never_not_mem
  have hclosed : ∀ l ∈ parts.layers, l.offers.Closed := closed_packageLayers
  unfold Packed.IsFlat Packed.layers at hflat hclosed
  rw [(parts.tests_eq hstub).1] at hlast hlisted hflat hclosed
  obtain ⟨flag, hkept⟩ := packageLayers_keep hsound hs.inside hlisted hsent hexercise hstyle <| by
    by_cases hcovers : Config.Covers parts.config.extraStudentFiles rel
    · exact .inl hcovers
    · refine .inr ⟨hsource.resolve_left hcovers, ?_⟩
      rw [← hstyle, hfromClone]
      exact harrived.undisturbed hs hg.back (fun names data executable => (hreceived names data executable).1) hcovers
        (hundisturbed.resolve_left hcovers)
  exact ⟨flag, (hlast.file_iff hclosed hflat).2 hkept⟩

/-! ### Samples -/

/-- A project `p`, its clone `c`, and a file of the student. -/
structure Exchange where
  files : List (Location × Node)
  ecosystem : Ecosystem
  config : Config
  rel : List String

namespace Exchange

/-- A session in a directory `w` that holds the project and the clone. -/
def session (x : Exchange) : Session where
  files := ⟨[(["w"], .directory), (["w", "p"], .directory), (["w", "c"], .directory)] ++ x.files⟩
  workingDir := ["w"]
  scratch := ["t"]

/-- The project of the student. -/
def home : Path := ⟨.relative, ["p"]⟩

/-- The student's policy. -/
def ownPolicy (x : Exchange) : Policy := ⟨.ecosystem x.ecosystem, home, 0⟩

/-- What is sent by the student is packaged. -/
def packaging : Request :=
  { submission := ⟨.relative, ["s.zip"]⟩, output := ⟨.relative, ["o"]⟩, clone := ⟨.relative, ["c"]⟩, asZip := true }

/-- The student compresses the project. -/
def sent (x : Exchange) : Except Failure Unit × Session :=
  (compress x.ownPolicy home packaging.submission).perform x.session

/-- The root of the project that is received. -/
def root (x : Exchange) : Path := Location.path (x.sent.2.scratch ++ ["received", "p"])

/-- The clone has a file below `lib/src`, which is configured to be of the exercise. -/
def ofExercise (name : String) : Exchange where
  files :=
    let config := Bytes.ofString "extra_exercise_files: [lib/src]"
    [(["w", "p", "build.xml"], .file [] false), (["w", "p", Config.fileName], .file config false),
      (["w", "p", "src"], .directory), (["w", "p", "src", "A"], .file [1] false),
      (["w", "c", "build.xml"], .file [] false), (["w", "c", Config.fileName], .file config false),
      (["w", "c", "lib"], .directory), (["w", "c", "lib", "src"], .directory),
      (["w", "c", "lib", "src", name], .file [2] false)]
  ecosystem := .ant
  config := { extraExerciseFiles := [⟨.relative, ["lib", "src"]⟩] }
  rel := ["src", "A"]

/-- The project has a file below `lib/src`, which is configured to be the student's. -/
def ofStudent : Exchange where
  files :=
    let config := Bytes.ofString "extra_student_files: [lib/src]"
    [(["w", "p", "build.xml"], .file [] false), (["w", "p", Config.fileName], .file config false),
      (["w", "p", "src"], .directory), (["w", "p", "src", "A"], .file [1] false),
      (["w", "p", "lib"], .directory), (["w", "p", "lib", "src"], .directory),
      (["w", "p", "lib", "src", "A"], .file [2] false),
      (["w", "c", "build.xml"], .file [] false), (["w", "c", Config.fileName], .file config false)]
  ecosystem := .ant
  config := { extraStudentFiles := [⟨.relative, ["lib", "src"]⟩] }
  rel := ["src", "A"]

/-- A file `src` is at the top of the project and at the top of the clone. -/
def atTop : Exchange where
  files := [(["w", "p", "Makefile"], .file [] false), (["w", "p", "src"], .file [1] false),
    (["w", "c", "Makefile"], .file [] false), (["w", "c", "src"], .file [2] false)]
  ecosystem := .make
  config := {}
  rel := ["src"]

/-- A file at the top of the project has a name with a backslash. -/
def withBackslash : Exchange where
  files := [(["w", "p", "build.xml"], .file [] false), (["w", "p", "src"], .directory),
    (["w", "p", "src", "A"], .file [1] false), (["w", "p", "src\\A"], .file [2] false),
    (["w", "c", "build.xml"], .file [] false)]
  ecosystem := .ant
  config := {}
  rel := ["src", "A"]

/-- The student's file does not reach the package: the project is sent, the package is made, and in the place of the
file there is another one with other data. -/
def Displaces (x : Exchange) : Prop :=
  let s := x.session
  s.files.links = 0 ∧ ((Ecosystem.find? home).perform s).1 = .ok (some x.ecosystem) ∧
    ((Ecosystem.find? packaging.clone).perform s).1 = .ok (some x.ecosystem) ∧
    ((Config.load home).perform s).1 = .ok x.config ∧ ((Config.load packaging.clone).perform s).1 = .ok x.config ∧
    x.sent.1 = .ok () ∧ s.files.content ["w", "p"] x.rel = some (.file [1] false) ∧
    ((x.ownPolicy.isStudentFile (home.append x.rel) home none).perform s).1 = .ok true ∧
    (∀ c ∈ "p" :: x.rel, Archive.IsKept c) ∧ ((pack packaging).perform x.sent.2).1 = .ok () ∧
    ∀ parts : Packed x.sent.2 packaging, parts.FindsRoot ["w", "p"] ∧ parts.IsFlat ∧
      parts.content x.rel = some (.file [2] false)

/-- A run of an exchange tells that the student's file is displaced. -/
private theorem displaces_of_run {x : Exchange}
    (hrun : let s := x.session
      let received := ((receive packaging).perform x.sent.2).2
      let furnished := ((furnish packaging x.sent.2.scratch.path (x.root, x.ecosystem)).perform received).2
      (s.files.links = 0 ∧ ((Ecosystem.find? home).perform s).1 = .ok (some x.ecosystem) ∧
        ((Ecosystem.find? packaging.clone).perform s).1 = .ok (some x.ecosystem) ∧
        ((Config.load home).perform s).1 = .ok x.config ∧ ((Config.load packaging.clone).perform s).1 = .ok x.config ∧
        x.sent.1 = .ok () ∧ s.files.content ["w", "p"] x.rel = some (.file [1] false) ∧
        ((x.ownPolicy.isStudentFile (home.append x.rel) home none).perform s).1 = .ok true ∧
        (∀ c ∈ "p" :: x.rel, Archive.IsKept c) ∧ ((pack packaging).perform x.sent.2).1 = .ok ()) ∧
      ((receive packaging).perform x.sent.2).1 = .ok (x.root, x.ecosystem) ∧
      ((Config.load packaging.clone).perform x.sent.2).1 = .ok x.config ∧
      (∀ e ∈ furnished.files.entries, furnished.files.get? e.1.dropLast = some .directory ∧
        ∀ name ∈ e.1.getLast?, IsProper name) ∧
      (∀ names ∈ [] :: furnished.files.listing (x.sent.2.scratch ++ ["dest"]),
        furnished.files.content (x.sent.2.scratch ++ ["dest"]) names = some .directory →
          ∀ l ∈ packageLayers (withPackage x.sent.2.scratch received) {} packaging.clone x.ecosystem x.root packaging.clone x.config,
            l.file? names = none) ∧
      furnished.files.content (x.sent.2.scratch ++ ["dest"]) x.rel = some (.file [2] false)) : x.Displaces := by
  obtain ⟨hclaim, hreceive, hload, hentries, hflat, hcontent⟩ := hrun
  obtain ⟨hlinks, hhome, hclone, hhomeLoad, hcloneLoad, hsent, hfile, hstudent, hkept, hpack⟩ := hclaim
  refine ⟨hlinks, hhome, hclone, hhomeLoad, hcloneLoad, hsent, hfile, hstudent, hkept, hpack, fun parts => ?_⟩
  obtain ⟨hproject, hecosystem, hreceived, hfurnished⟩ := parts.eq_of_receive hreceive
  obtain ⟨htests, hfetched⟩ := parts.tests_eq rfl
  have hconfig := Except.ok.inj (hload.symm.trans parts.load_eq)
  have hwell : parts.furnished.files.WellFormed := by
    rw [hfurnished]
    exact Files.wellFormed_of_entries hentries
  refine ⟨hproject, parts.isFlat_of_listing hwell ?_, ?_⟩
  · unfold Packed.content Packed.layers
    rw [hfurnished, hproject, hecosystem, htests, hfetched, hreceived, ← hconfig]
    exact hflat
  · unfold Packed.content
    rw [hfurnished]
    exact hcontent

/-- The student's files do not always reach the package unchanged: in each of these exchanges, something else goes to the
place of the student's file. -/
theorem samples_displace :
    (ofExercise "A").Displaces ∧ ofStudent.Displaces ∧ atTop.Displaces ∧ withBackslash.Displaces :=
  ⟨displaces_of_run (by decide +kernel), displaces_of_run (by decide +kernel), displaces_of_run (by decide +kernel),
    displaces_of_run (by decide +kernel)⟩

/-- Where the file below `lib/src` has another name, the student's file is packaged. -/
theorem ofExercise_packaged :
    let x := ofExercise "B"
    let g := x.sent.2
    ReplacedBy x.session packaging.submission
        (Archive.encode .zip (submissionEntries home .ant x.config x.session.files ["w", "p"])) g.files ∧
      ∃ parts : Packed g packaging, packaging.Written g ((pack packaging).perform g).2 parts.content ∧
        ∃ flag, parts.content ["src", "A"] = some (.file [1] flag) := by
  intro x g
  obtain ⟨hown, hunlinked⟩ : x.session.Unlinked ∧ g.Unlinked := by decide +kernel
  have hlisted : x.session.Listed home ["w", "p"] := by
    refine ⟨hown.ready.sound, ⟨by decide +kernel, fun follow => ?_⟩, by decide +kernel, fun rel => hown.ne_link _,
      fun rel => List.not_mem_nil⟩
    cases follow <;> decide +kernel
  have hsubmittable : Submittable x.session x.ownPolicy home ["w", "p"] .ant x.config := by
    refine ⟨hlisted, rfl, by decide +kernel, rfl, by decide +kernel, fun rel hrel => ?_⟩
    have hnone : ∀ rel ∈ [] :: x.session.files.listing ["w", "p"], ∀ y ∈ "p" :: rel, '\\' ∉ y.toList := by decide +kernel
    refine hnone rel (List.mem_cons.2 (hrel.imp id fun hrel => ?_))
    exact (Files.mem_listing hlisted.sound.files).2 ⟨hrel.ne_nil, hrel.exists hlisted.sound.files⟩
  have hfile : x.session.files.content ["w", "p"] ["src", "A"] = some (.file [1] false) := by decide +kernel
  have hsent : x.sent.1 = .ok () := by decide +kernel
  have hcompress : (compress x.ownPolicy home packaging.submission).perform x.session = (.ok (), g) :=
    perform_eq_of_fst hsent
  obtain ⟨hwritten, hpackage⟩ := student_file_of_package hsubmittable (by decide +kernel) hcompress hfile
    (by decide +kernel) (by decide)
  refine ⟨hwritten, ?_⟩
  have hapart : packaging.Apart g := Request.apart_of_unlinked hunlinked (by decide +kernel)
  have hwritable : packaging.Writable g := Request.writable_of_unlinked hunlinked (by decide +kernel) (by decide +kernel)
  have hrun : let received := ((receive packaging).perform g).2
      let furnished := ((furnish packaging g.scratch.path (x.root, .ant)).perform received).2
      ((receive packaging).perform g).1 = .ok (x.root, .ant) ∧
      ((Config.load packaging.clone).perform g).1 = .ok x.config ∧
      (∀ e ∈ furnished.files.entries, furnished.files.get? e.1.dropLast = some .directory ∧
        ∀ name ∈ e.1.getLast?, IsProper name) ∧
      ∀ names ∈ [] :: furnished.files.listing (g.scratch ++ ["dest"]),
        furnished.files.content (g.scratch ++ ["dest"]) names = some .directory →
          ∀ l ∈ packageLayers (withPackage g.scratch received) {} packaging.clone .ant x.root packaging.clone x.config,
            l.file? names = none := by decide +kernel
  obtain ⟨hreceive, hload, hfurnished, hflat⟩ := hrun
  have hhanded : HandedIn g packaging.submission (submissionEntries home .ant x.config x.session.files ["w", "p"])
      ⟨(submissionEntries home .ant x.config x.session.files ["w", "p"]).map fun e =>
        { e.member with executable := e.node = .directory, method := some (Archive.Zip.methodOf e.node) }, none⟩ :=
    ⟨by decide +kernel, by decide +kernel, by decide +kernel,
      hunlinked.avoids rfl (by decide)⟩
  have hok : ((pack packaging).perform g).1 = .ok () := by decide +kernel
  have hroot : x.root = Location.path (g.scratch ++ "received" :: Option.toList (some "p")) := rfl
  have hclone : g.file? packaging.clone ["lib", "src", "A"] = none := by decide +kernel
  clear_value g
  obtain ⟨parts, hpackaged, hkept⟩ := hpackage g packaging _ _ hhanded rfl hapart hwritable hload (perform_eq_of_fst hok)
  obtain ⟨hproject, hecosystem, hreceived, hdest⟩ := parts.eq_of_receive hreceive
  obtain ⟨htests, hfetched⟩ := parts.tests_eq rfl
  have hconfig := Except.ok.inj (hload.symm.trans parts.load_eq)
  refine ⟨parts, hpackaged, hkept (hproject.trans hroot) (parts.isFlat_of_listing ?_ ?_) (.inr ⟨nofun, fun _ => nofun, ?_⟩)⟩
  · rw [hdest]
    exact Files.wellFormed_of_entries hfurnished
  · unfold Packed.content Packed.layers
    rw [hdest, hproject, hecosystem, htests, hfetched, hreceived, ← hconfig]
    exact hflat
  · rintro - q hq rest hrest file hfile
    obtain rfl : q = ⟨.relative, ["lib", "src"]⟩ := List.mem_singleton.1 hq
    obtain rfl : ["A"] = rest := (List.cons.inj hrest).2
    cases hclone.symm.trans hfile

end Exchange

end Submission

end Handout

import Handout.Proofs.Submission.Pack

/-!
# What a package depends on

Of a submission, the package depends on the student's parts and on what development environments keep, and on nothing
else (`pack_of_sameParts`): not on where in the archive the project is, nor on what else the student has put in it.

That the parts are the same is not all that is needed (`sampleRequest_deviates`): a project that is packaged as a whole
under its own name has to have the same name, and a clone whose name is `..` may not be copied under this name.
-/

namespace Handout.Submission

open Handout.Action Session

variable {s u v : Session} {p p' : Path} {e : Ecosystem}

/-- Received submissions that agree on what is packaged are packaged alike: the outcome is the same, and so is
everything that is stored in the end. -/
theorem pack_of_sameParts {request : Request} (submission : Path) (hrequest : request.Apart s)
    (hu : (receive request).perform s = (.ok (p, e), u))
    (hv : (receive { request with submission := submission }).perform s = (.ok (p', e), v))
    (hsame : SameParts s u v request.clone e p p') (hclone : request.NamesClone s e) :
    let o := (pack request).perform s
    let o' := (pack { request with submission := submission }).perform s
    Answers o.1 o'.1 ∧ ∀ x, o.2.files.get? x = o'.2.files.get? x := by
  intro o o'
  have hreceived := received_of_perform hrequest.ready hu
  have hreceived' := received_of_perform hrequest.ready hv
  have hdeliver := deliver_relates hrequest hreceived hreceived' hsame hclone u v (.start hreceived hreceived')
  obtain ⟨hresult, hfiles⟩ := pack_of_receive hrequest.ready.scratch_ne_nil hu
  obtain ⟨hresult', hfiles'⟩ := pack_of_receive hrequest.ready.scratch_ne_nil hv
  have hsecond : deliver { request with submission := submission } = deliver request := rfl
  rw [hsecond] at hresult' hfiles'
  rw [hresult, hresult']
  generalize (deliver request s.scratch.path (p, e)).perform u = a at hdeliver hfiles ⊢
  generalize (deliver request s.scratch.path (p', e)).perform v = b at hdeliver hfiles' ⊢
  obtain ⟨r, c⟩ := a
  obtain ⟨r', d⟩ := b
  have hrest : Archive.SameOutside s.scratch c d → ∀ x, o.2.files.get? x = o'.2.files.get? x := by
    intro h x
    rw [hfiles, hfiles']
    split
    · rfl
    · rename_i hx
      exact (h x hx).symm
  cases r with
  | ok _ =>
    cases r' with
    | ok _ => exact ⟨rfl, hrest hdeliver.2⟩
    | error _ => exact hdeliver.elim
  | error _ =>
    cases r' with
    | ok _ => exact hdeliver.elim
    | error _ => exact ⟨hdeliver.1, hrest hdeliver.2⟩

/-! ### Submissions that differ elsewhere -/

/-- A session in a directory `w` that holds a clone `c` and three submissions: `a.zip`, `b.zip` with the same project in
a directory of its own, and `d.zip` with some directories more. -/
def sampleSession (more : List (Location × Node)) : Session where
  files := ⟨[(["w"], .directory), (["w", "c"], .directory),
    (["w", "a.zip"], .file (Archive.encode .zip [⟨"build.xml", .file [] false⟩, ⟨"src/A", .file [1] false⟩]) false),
    (["w", "b.zip"], .file (Archive.encode .zip [⟨"p/build.xml", .file [] false⟩, ⟨"p/src/A", .file [1] false⟩]) false),
    (["w", "d.zip"], .file (Archive.encode .zip [⟨"build.xml", .file [] false⟩, ⟨"src/A", .file [1] false⟩,
      ⟨"x/x/", .directory⟩]) false)] ++ more⟩
  workingDir := ["w"]
  scratch := ["t"]

/-- A configuration file in the clone of the sample session. -/
def sampleConfig (text : String) : Location × Node :=
  (["w", "c", Config.fileName], .file (Bytes.ofString text) false)

/-- The packaging of a submission in the sample session. -/
def sampleRequest (clone : List String) (name : String) : Request :=
  { submission := ⟨.relative, [name]⟩, output := ⟨.relative, ["o"]⟩, clone := ⟨.relative, clone⟩, asZip := true }

/-- What the student has put beside the parts that are packaged does not matter, nor does the place of the project. -/
theorem sampleRequest_same :
    let s := sampleSession []
    let o := (pack (sampleRequest ["c"] "b.zip")).perform s
    let o' := (pack (sampleRequest ["c"] "d.zip")).perform s
    Answers o.1 o'.1 ∧ ∀ x, o.2.files.get? x = o'.2.files.get? x := by
  intro s
  have hunlinked : s.Unlinked := by decide +kernel
  have hrequest : (sampleRequest ["c"] "b.zip").Apart s := Request.apart_of_unlinked hunlinked (by decide +kernel)
  have hload : ((Config.load ⟨.relative, ["c"]⟩).perform s).1 = .ok {} := by decide +kernel
  have hu : ((receive (sampleRequest ["c"] "b.zip")).perform s).1 = .ok (Location.path ["t", "received", "p"], .ant) := by
    decide +kernel
  have hv : ((receive (sampleRequest ["c"] "d.zip")).perform s).1 = .ok (Location.path ["t", "received"], .ant) := by
    decide +kernel
  have hcontent : ∀ names ∈ ["src"] :: environmentNames.map ([·]),
      ((receive (sampleRequest ["c"] "b.zip")).perform s).2.files.content (["t", "received", "p"] ++ names) =
        ((receive (sampleRequest ["c"] "d.zip")).perform s).2.files.content (["t", "received"] ++ names) := fun names h =>
    Files.content_congr (Files.wellFormed_of_entries (by decide +kernel)) (Files.wellFormed_of_entries (by decide +kernel))
      (by revert names; decide +kernel)
  have hthere : ((receive (sampleRequest ["c"] "b.zip")).perform s).2.exists? (Location.path ["t", "received", "p", "src"]) =
      .ok true := by decide +kernel
  have hthere' : ((receive (sampleRequest ["c"] "d.zip")).perform s).2.exists? (Location.path ["t", "received", "src"]) =
      .ok true := by decide +kernel
  rcases hreceive : (receive (sampleRequest ["c"] "b.zip")).perform s with ⟨r, u⟩
  rcases hreceive' : (receive (sampleRequest ["c"] "d.zip")).perform s with ⟨r', v⟩
  rw [hreceive] at hu hcontent hthere
  rw [hreceive'] at hv hcontent hthere'
  dsimp only at hu hv
  subst hu hv
  have hreceive' : (receive { sampleRequest ["c"] "b.zip" with submission := ⟨.relative, ["d.zip"]⟩ }).perform s =
      (.ok (Location.path ["t", "received"], .ant), v) := hreceive'
  clear_value s
  refine pack_of_sameParts ⟨.relative, ["d.zip"]⟩ hrequest hreceive hreceive' ⟨?_, ?_, ?_, ?_⟩ ?_
  · exact fun name hname => hcontent [name] (by simp [hname])
  all_goals
    intro c hc
    obtain rfl := Except.ok.inj (hload.symm.trans hc)
  · intro q hq
    obtain rfl : q = ⟨.relative, ["src"]⟩ := by
      revert q
      decide +kernel
    exact hcontent ["src"] (by simp)
  · intro q hq
    obtain rfl : q = ⟨.relative, ["src"]⟩ := by
      revert q
      decide +kernel
    show Answers (u.exists? (Location.path ["t", "received", "p", "src"])) (v.exists? (Location.path ["t", "received", "src"]))
    rw [hthere, hthere']
    exact Answers.refl _
  · decide +kernel
  · exact fun _ hhere => absurd hhere (by decide +kernel)

/-- A submission that agrees with that of a request on all parts that are packaged, but is packaged with another
outcome. -/
def Deviates (s : Session) (request : Request) (submission : Path) : Prop :=
  let other := { request with submission := submission }
  let o := (receive request).perform s
  let o' := (receive other).perform s
  ∃ p p' e c, o.1 = .ok (p, e) ∧ o'.1 = .ok (p', e) ∧ ((Config.load request.clone).perform s).1 = .ok c ∧
    (∀ q ∈ environmentNames.map (fun name => ⟨.relative, [name]⟩) ++ (e.layoutOf c).studentPaths,
      o.2.files.content (p.parts ++ q.parts) = o'.2.files.content (p'.parts ++ q.parts)) ∧
    ¬ (Answers ((pack request).perform s).1 ((pack other).perform s).1 ∧
      ∀ x, ((pack request).perform s).2.files.get? x = ((pack other).perform s).2.files.get? x)

/-- Whether a submission deviates can be computed: its parts are compared by what is listed for them. -/
theorem Deviates.of_listings {request : Request} {submission : Path} (p p' : Path) (e : Ecosystem) (c : Config)
    (x : Location) (hs : s.Ready)
    (h : let other := { request with submission := submission }
      let o := (receive request).perform s
      let o' := (receive other).perform s
      o.1 = .ok (p, e) ∧ o'.1 = .ok (p', e) ∧ ((Config.load request.clone).perform s).1 = .ok c ∧
        (∀ q ∈ environmentNames.map (fun name => ⟨.relative, [name]⟩) ++ (e.layoutOf c).studentPaths,
          ∀ rel ∈ [] :: (o.2.files.listing (p.parts ++ q.parts) ++ o'.2.files.listing (p'.parts ++ q.parts)),
            o.2.files.get? (p.parts ++ q.parts ++ rel) = o'.2.files.get? (p'.parts ++ q.parts ++ rel)) ∧
        ((pack request).perform s).1 = .ok () ∧ (((pack other).perform s).1 = .ok () →
          ((pack request).perform s).2.files.get? x ≠ ((pack other).perform s).2.files.get? x)) :
    Deviates s request submission := by
  obtain ⟨ho, ho', hload, hparts, hok, hfiles⟩ := h
  have hwell : ∀ {request : Request} {p e}, ((receive request).perform s).1 = .ok (p, e) →
      ((receive request).perform s).2.files.WellFormed := by
    intro request p e hr
    rcases hperform : (receive request).perform s with ⟨r, u⟩
    rw [hperform] at hr
    cases hr
    exact (received_of_perform hs hperform).within.sound.files
  refine ⟨p, p', e, c, ho, ho', hload, fun q hq => Files.content_congr (hwell ho) (hwell ho') (hparts q hq), ?_⟩
  rintro ⟨hanswers, hsame⟩
  rw [hok] at hanswers
  rcases hother : ((pack { request with submission := submission }).perform s).1 with e | ⟨⟩
  · rw [hother] at hanswers
    exact hanswers
  · exact hfiles hother (hsame x)

/-- Two ways in which more of a submission matters.  A project that is packaged as a whole under its own name is called
`received` or `p`.  A clone with the name `..` is copied over the submission, and is in the way of its directories. -/
theorem sampleRequest_deviates :
    Deviates (sampleSession [sampleConfig "extra_student_files: [.]"]) (sampleRequest ["c"] "a.zip") ⟨.relative, ["b.zip"]⟩ ∧
    Deviates (sampleSession [sampleConfig "extra_exercise_files: [.]", (["w", "c", "q"], .directory),
      (["w", "c", "received"], .directory), (["w", "c", "received", "x"], .file [] false)])
      (sampleRequest ["c", "q", ".."] "a.zip") ⟨.relative, ["d.zip"]⟩ := by
  constructor
  · exact .of_listings (Location.path ["t", "received"]) (Location.path ["t", "received", "p"]) .ant
      { extraStudentFiles := [Path.here] } ["w", "o"]
      (Session.Unlinked.ready (by decide +kernel)) (by decide +kernel)
  · exact .of_listings (Location.path ["t", "received"]) (Location.path ["t", "received"]) .ant
      { extraExerciseFiles := [Path.here] } ["w", "o"]
      (Session.Unlinked.ready (by decide +kernel)) (by decide +kernel)

end Handout.Submission

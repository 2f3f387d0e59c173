import Handout.Proofs.Submission.Student

/-!
# Extra student files reach the package

Whatever is copied to a package before, the extra student files of the received project are copied to their places once
more at the end, whole directories as well as single files.  So an extra student file is packaged as it was received,
unless a directory is in its place (`extra_student_file_of_package`), also where the parts of the exercise, the files at
the top of the clone or other extra files overlap with it.

This takes it for granted that the received project is still what was received, and that the draft of the package is
moved to its place.  A clone with the name `..` can be copied over the submission, and a draft that is a link is moved
as a link (`sampleNotes_lost`).
-/

namespace Handout.Submission

open Handout.Action Session

variable {s t : Session} {request : Request}

/-- An extra student file of the received project is packaged as it was received, unless it meets a directory. -/
theorem extra_student_file_of_package (hrequest : request.Apart s) (hwritable : request.Writable s)
    (hclone : ∀ e, request.NamesClone s e) (h : (pack request).perform s = (.ok (), t)) :
    ∃ parts : Packed s request, request.Written s t parts.content ∧
      ∀ rel data executable, Config.Covers parts.config.extraStudentFiles rel →
        parts.received.file? parts.project rel = some (data, executable) →
          parts.content rel ≠ some .directory → parts.content rel = some (.file data executable) := by
  obtain ⟨parts, hwritten⟩ := pack_written hrequest hwritable hclone h
  refine ⟨parts, hwritten, fun rel data executable hcovers hfile hdir => ?_⟩
  obtain ⟨-, -, hoffers, -⟩ := parts.offers_eq hrequest
  have hsame : (withPackage s.scratch parts.fetched).file? parts.project rel = some (data, executable) := by
    unfold Session.file? at hfile ⊢
    rwa [hoffers]
  have hinside : ∀ q ∈ Path.sort parts.config.extraStudentFiles, Config.IsInside q := fun q hq =>
    Config.inside_of_load parts.load_eq .extraStudentFiles q ((sortBy_perm _ _).mem_iff.1 hq)
  obtain ⟨q, hq, hprefix⟩ := hcovers
  have hq := (sortBy_perm Path.le _).mem_iff.2 hq
  obtain ⟨l, hl, hreach⟩ := exists_layerIf (by rw [hsame]; exact Option.some_ne_none _) hprefix
  rw [← join_of_inside (hinside q hq)] at hl
  have hclosed : ∀ l ∈ parts.layers, l.offers.Closed := closed_packageLayers
  -- the extra student files are the last layers
  exact file_of_agreeing parts.stacked (fun l hl => hclosed l (List.mem_append_right _ hl))
    ⟨l, List.mem_flatMap.2 ⟨q, hq, hl⟩, hreach⟩ (agreesWith_overlayLayers hinside) hsame hdir

/-- A session in a directory `w` that holds a clone, a submission and a stub, which all have files at the top and among
the tests.  The clone is configured to leave these to the student. -/
def sampleNotesSession : Session where
  files := ⟨[(["w"], .directory), (["w", "c"], .directory), (["w", "c", "pom.xml"], .file [2] false),
    (["w", "c", Config.fileName], .file (Bytes.ofString "extra_student_files: [src, pom.xml, src/test/N]") false),
    (["w", "c", "src"], .directory), (["w", "c", "src", "test"], .directory),
    (["w", "c", "src", "test", "N"], .file [2] false),
    (["w", "s.zip"], .file (Archive.encode .zip [⟨"pom.xml", .file [1] false⟩, ⟨"src/test/N", .file [1] false⟩]) false),
    (["w", "b.zip"], .file (Archive.encode .zip [⟨"pom.xml", .file [3] false⟩, ⟨"src/test/N", .file [3] false⟩]) false)]⟩
  workingDir := ["w"]
  scratch := ["t"]

/-- The packaging of the submission with the stub. -/
def sampleNotes : Request :=
  { submission := ⟨.relative, ["s.zip"]⟩, output := ⟨.relative, ["o.zip"]⟩, clone := ⟨.relative, ["c"]⟩,
    stub := some ⟨.relative, ["b.zip"]⟩, asZip := true }

/-- Although the clone and the stub have other files in their places, the student's files are packaged. -/
theorem sampleNotes_packaged :
    let s := sampleNotesSession
    ∃ parts : Packed s sampleNotes, sampleNotes.Written s ((pack sampleNotes).perform s).2 parts.content ∧
      parts.content ["src", "test", "N"] = some (.file [1] false) ∧ parts.content ["pom.xml"] = some (.file [1] false) := by
  intro s
  have hrun : let received := (receive sampleNotes).perform s
      s.Unlinked ∧ received.1 = .ok (Location.path ["t", "received"], .maven) ∧
        ((Config.load sampleNotes.clone).perform s).1 =
          .ok { extraStudentFiles := [⟨.relative, ["pom.xml"]⟩, ⟨.relative, ["src"]⟩, ⟨.relative, ["src", "test", "N"]⟩] } ∧
        ((pack sampleNotes).perform s).1 = .ok () ∧
        ∀ rel ∈ [["src", "test", "N"], ["pom.xml"]],
          received.2.file? (Location.path ["t", "received"]) rel = some ([1], false) ∧
            ((furnish sampleNotes s.scratch.path (Location.path ["t", "received"], .maven)).perform
              received.2).2.files.content (s.scratch ++ ["dest"]) rel ≠ some .directory := by decide +kernel
  obtain ⟨hunlinked, hreceive, hload, hok, hfiles⟩ := hrun
  have hrequest : sampleNotes.Apart s := Request.apart_of_unlinked hunlinked (by decide +kernel)
  have hwritable : sampleNotes.Writable s :=
    Request.writable_of_unlinked hunlinked (by decide +kernel) (by decide +kernel)
  have hclone : ∀ e, sampleNotes.NamesClone s e := fun e c _ _ _ hstub => nomatch hstub
  clear_value s
  obtain ⟨parts, hwritten, hkept⟩ := extra_student_file_of_package hrequest hwritable hclone (perform_eq_of_fst hok)
  obtain ⟨hproject, -, hreceived, hfurnished⟩ := parts.eq_of_receive hreceive
  have hconfig := Except.ok.inj (hload.symm.trans parts.load_eq)
  have hboth : ∀ rel ∈ [["src", "test", "N"], ["pom.xml"]],
      Config.Covers parts.config.extraStudentFiles rel → parts.content rel = some (.file [1] false) := by
    intro rel hrel hcovers
    obtain ⟨hfile, hdir⟩ := hfiles rel hrel
    refine hkept rel _ _ hcovers ?_ ?_
    · rwa [hproject, hreceived]
    · unfold Packed.content
      rwa [hfurnished]
  rw [← hconfig] at hboth
  refine ⟨parts, hwritten, hboth _ (by simp) ⟨⟨.relative, ["src"]⟩, by simp, by decide⟩,
    hboth _ (by simp) ⟨⟨.relative, ["pom.xml"]⟩, by simp, by decide⟩⟩

/-- A session in a directory `w` that holds a clone, which may have more files, and a submission with notes. -/
def sampleLostSession (config : String) (more : List (Location × Node)) : Session where
  files := ⟨[(["w"], .directory), (["w", "c"], .directory), (["w", "c", Config.fileName], .file (Bytes.ofString config) false),
    (["w", "s.zip"], .file (Archive.encode .zip [⟨"build.xml", .file [] false⟩, ⟨"doc/f", .file [1] false⟩]) false)] ++ more⟩
  workingDir := ["w"]
  scratch := ["t"]

/-- The packaging of the submission with the notes. -/
def sampleLost (clone : List String) : Request :=
  { submission := ⟨.relative, ["s.zip"]⟩, output := ⟨.relative, ["o.zip"]⟩, clone := ⟨.relative, clone⟩, asZip := true }

/-- Two ways in which an extra student file is lost, although no file meets a directory.  A clone with the name `..`
that is packaged as a whole is copied over the directory that holds the package, and over what was received there.  A
draft that is a link to the output takes the place of the package. -/
theorem sampleNotes_lost :
    (let request := sampleLost ["c", "x", ".."]
      let s := sampleLostSession "extra_exercise_files: [.]\nextra_student_files: [doc]"
        [(["w", "c", "x"], .directory), (["w", "c", "received"], .directory), (["w", "c", "received", "doc"], .directory),
          (["w", "c", "received", "doc", "f"], .file [2] false)]
      s.files.links = 0 ∧ ((pack request).perform s).1 = .ok () ∧
        ∀ parts : Packed s request, parts.IsFlat ∧ Config.Covers parts.config.extraStudentFiles ["doc", "f"] ∧
          parts.received.file? parts.project ["doc", "f"] = some ([1], false) ∧
          parts.content ["doc", "f"] = some (.file [2] false)) ∧
    let s := sampleLostSession "extra_student_files: [doc]" [(["w", "o.zip.tmp"], .link "o.zip")]
    ((pack (sampleLost ["c"])).perform s).1 = .ok () ∧
      ∀ content, ¬ (sampleLost ["c"]).Written s ((pack (sampleLost ["c"])).perform s).2 content := by
  refine ⟨?_, ?_⟩
  · intro request s
    have hrun : let received := ((receive request).perform s)
        let furnished := ((furnish request s.scratch.path (Location.path ["t", "received"], .ant)).perform received.2).2
        s.files.links = 0 ∧ ((pack request).perform s).1 = .ok () ∧
          received.1 = .ok (Location.path ["t", "received"], .ant) ∧
          ((Config.load request.clone).perform s).1 =
            .ok { extraStudentFiles := [⟨.relative, ["doc"]⟩], extraExerciseFiles := [⟨.relative, []⟩] } ∧
          received.2.file? (Location.path ["t", "received"]) ["doc", "f"] = some ([1], false) ∧
          furnished.files.content (s.scratch ++ ["dest"]) ["doc", "f"] = some (.file [2] false) ∧
          (∀ e ∈ furnished.files.entries, furnished.files.get? e.1.dropLast = some .directory ∧
            ∀ name ∈ e.1.getLast?, IsProper name) ∧
          ∀ names ∈ [] :: furnished.files.listing (s.scratch ++ ["dest"]),
            furnished.files.content (s.scratch ++ ["dest"]) names = some .directory →
              ∀ l ∈ packageLayers (withPackage s.scratch received.2) request.params request.clone .ant
                  (Location.path ["t", "received"]) request.clone
                  { extraStudentFiles := [⟨.relative, ["doc"]⟩], extraExerciseFiles := [⟨.relative, []⟩] },
                l.file? names = none := by decide +kernel
    obtain ⟨hlinks, hok, hreceive, hload, hfile, hcontent, hentries, hflat⟩ := hrun
    refine ⟨hlinks, hok, fun parts => ?_⟩
    obtain ⟨hproject, hecosystem, hreceived, hfurnished⟩ := parts.eq_of_receive hreceive
    obtain ⟨htests, hfetched⟩ := parts.tests_eq rfl
    have hconfig := Except.ok.inj (hload.symm.trans parts.load_eq)
    refine ⟨parts.isFlat_of_listing ?_ ?_, ?_, ?_, ?_⟩
    · rw [hfurnished]
      exact Files.wellFormed_of_entries hentries
    · unfold Packed.content Packed.layers
      rw [hfurnished, hproject, hecosystem, htests, hfetched, hreceived, ← hconfig]
      exact hflat
    · rw [← hconfig]
      exact ⟨⟨.relative, ["doc"]⟩, List.mem_singleton_self _, by decide⟩
    · rw [hproject, hreceived]
      exact hfile
    · unfold Packed.content
      rw [hfurnished]
      exact hcontent
  · intro s
    have hrun : ((pack (sampleLost ["c"])).perform s).1 = .ok () ∧
        s.find false (sampleLost ["c"]).output = .ok ⟨["w", "o.zip"], none⟩ ∧
        ((pack (sampleLost ["c"])).perform s).2.files.get? ["w", "o.zip"] = some (.link "o.zip") := by decide +kernel
    obtain ⟨hok, hplace, hlink⟩ := hrun
    refine ⟨hok, ?_⟩
    rintro content ⟨place, data, executable, hfind, hfile, -⟩
    cases hplace.symm.trans hfind
    cases hlink.symm.trans hfile

end Handout.Submission

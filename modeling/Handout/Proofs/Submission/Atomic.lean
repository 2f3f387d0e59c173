import Handout.Proofs.Archive.Atomic
import Handout.Proofs.Project.Policy
import Handout.Proofs.Submission.Containment
import Handout.Proofs.Submission.Noninterference
import Handout.Submission.Compress

/-!
# Compressing and packaging are atomic

Choosing the files of a submission only looks at the project, though a policy may load its configuration on the way
(`submittedPaths_preserves`).  Packaging works in the temporary directory, of which nothing is left.  So either leaves
all files as they were, or it replaces what the path of the archive leads to and nothing else (`compress_ensures`,
`pack_ensures`).
-/

namespace Handout

open Handout.Action Session

variable {P : Session → Prop} {s t : Session} {output : Path}

namespace Submission

/-- Choosing the files of a submission may load a configuration and changes nothing else. -/
theorem submittedPaths_preserves (policy : Policy) (project : Path) (hload : ∀ s loaded, P s → P { s with loaded }) :
    Preserves P (submittedPaths policy project) := by
  have hstudent : Preserves P (studentPaths policy project) := by
    refine Preserves.bind (Preserves.get_bind fun s => foldBelow_preserves (fun acc p => ?_) true _ _ project) fun _ =>
      Preserves.pure _
    refine Preserves.bind ((Preserves.query _).bind fun found => ?_) fun keep => ?_
    · split
      · exact (policy.classify_preserves hload p project none false).bind fun _ => Preserves.pure _
      · exact Preserves.pure _
    · split <;> exact Preserves.pure _
  exact ((looks_filesIn project).preserves.during .list project).bind fun top => hstudent.bind fun _ => Preserves.pure _

/-- A compressed project replaces what its path leads to, and nothing else changes, or no file changes. -/
theorem compress_ensures (policy : Policy) (project : Path) (hfree : s.node? false (output.addSuffix ".tmp") = none) :
    Ensures (SameStore s) (compress policy project output) (fun _ t => Replaced s output t.files)
      fun _ t => t.files = s.files := by
  have hpaths : Preserves (SameStore s) (submittedPaths policy project) :=
    submittedPaths_preserves policy project fun t loaded ht => ⟨ht.files, ht.workingDir⟩
  have hcreate := fun top paths => Archive.create_ensures .zip project top (some paths) hfree
  unfold compress
  refine (Ensures.note (SameStore.note s)).bind fun _ => ?_
  refine ((Looks.query _).ensures fun _ _ ht => ht.files).bind fun root => ?_
  exact (hpaths.ensures.mono (fun _ ht => ht) (fun _ _ ht => ht) fun _ _ ht => ht.files).bind fun paths => hcreate _ paths

/-! ### Packaging -/

variable {request : Request} {f : Files}

/-- When the temporary directory is removed, everything elsewhere is as it was left. -/
private theorem replaced_of_within (hs : s.Ready) (houtput : Avoids s output s.scratch)
    (ht : Within s.opened t s.scratch) (h : Replaced t output f) : Replaced s output (f.eraseTree s.scratch) := by
  obtain ⟨place, data, executable, hfind, hfile, hothers⟩ := h
  have hview := houtput.sameView hs ht
  rw [← Path.append_nil output, ← hview.find [] (by simp) false, Path.append_nil] at hfind
  have hplace : ¬ s.scratch <+: place.location := houtput.place_not_below hfind
  refine ⟨place, data, executable, hfind, ?_, fun x hx => ?_⟩
  · rw [Files.get?_eraseTree_of_not_below hs.scratch_ne_nil hplace, hfile]
  · rcases hs.get?_eraseTree f x with he | ⟨hbelow, he⟩
    · exact he
    · rw [he, hothers x hx, ht.outside x hbelow]
      refine Files.get?_put_of_ne hs.scratch_ne_nil ?_
      rintro rfl
      exact hbelow (List.prefix_refl _)

private theorem same_of_within (hs : s.Ready) (ht : Within s.opened t s.scratch) (x : Location) :
    (t.files.eraseTree s.scratch).get? x = s.files.get? x := by
  rcases hs.get?_eraseTree t.files x with he | ⟨hbelow, he⟩
  · exact he
  · rw [he, ht.outside x hbelow]
    refine Files.get?_put_of_ne hs.scratch_ne_nil ?_
    rintro rfl
    exact hbelow (List.prefix_refl _)

/-- Delivering a package that has been received. -/
private theorem deliver_ensures (hs : s.Ready) (hclone : request.clone.IsRead)
    (houtput : Avoids s request.output s.scratch) (hdraft : Avoids s (request.output.addSuffix ".tmp") s.scratch)
    (hfree : s.node? false (request.output.addSuffix ".tmp") = none) {r : Path × Ecosystem} (hreceived : r.1.IsRead) :
    Ensures (fun t => Within s.opened t s.scratch) (deliver request s.scratch.path r)
      (fun _ t => Replaced s request.output (t.files.eraseTree s.scratch))
      fun _ t => ∀ x, (t.files.eraseTree s.scratch).get? x = s.files.get? x := by
  unfold deliver
  refine ((furnish_within hclone hreceived).mono (fun _ ht => ht) (fun _ _ ht => ht) fun _ t ht =>
    same_of_within hs ht).bind fun _ t ht => ?_
  have hview := hdraft.sameView hs ht.within
  have hfree' : t.node? false (request.output.addSuffix ".tmp") = none := by
    have hfind := hview.find [] (by simp) false
    rw [Path.append_nil] at hfind
    unfold Session.node? at hfree ⊢
    rwa [← hfind]
  have hcreate := Archive.create_ensures request.format (s.scratch.path.child "dest") request.top none hfree' t (.refl t)
  refine hcreate.mono (fun _ u hu => replaced_of_within hs houtput ht.within hu) fun _ u hu => ?_
  rw [hu]
  exact same_of_within hs ht.within

/-- A package replaces what its path leads to, and nothing else changes, or everything is as before. -/
theorem pack_ensures (hs : s.Ready) (hclone : request.clone.IsRead)
    (houtput : Avoids s request.output s.scratch) (hdraft : Avoids s (request.output.addSuffix ".tmp") s.scratch)
    (hfree : s.node? false (request.output.addSuffix ".tmp") = none) :
    Ends (fun _ t => Replaced s request.output t.files) (fun _ t => ∀ x, t.files.get? x = s.files.get? x)
      ((pack request).perform s) := by
  have hreceive : Ensures (fun t => t = s) (receive request)
      (fun r t => Within s.opened t s.scratch ∧ r.1.IsRead)
      fun _ t => ∀ x, (t.files.eraseTree s.scratch).get? x = s.files.get? x :=
    (receive_ensures hs request).mono (fun _ ht => ht)
      (fun r t ht => ⟨ht.within, isRead_of_isDirectoryIn ht.within.sound ht.project⟩) fun _ t ht => same_of_within hs ht
  have hboth := hreceive.bind fun r => Ensures.of_and fun hr => deliver_ensures hs hclone houtput hdraft hfree hr
  have hends := hboth s rfl
  rw [perform_pack]
  rcases hp : (receive request >>= deliver request s.scratch.path).perform s with ⟨r, t⟩
  rw [hp] at hends
  cases r <;> exact hends

/-! ### Archives -/

/-- An outcome in which a path leads to a new regular file and nothing else has changed, or in which a failure has
changed nothing at all. -/
structure IsAtomic (s : Session) (output : Path) (o : Except Failure Unit × Session) : Prop where
  ok : ∀ t, o = (.ok (), t) → Replaced s output t.files
  error : ∀ e t, o = (.error e, t) → ∀ x, t.files.get? x = s.files.get? x

private theorem isAtomic_of_ends {o : Except Failure Unit × Session}
    (h : Ends (fun _ t => Replaced s output t.files) (fun _ t => ∀ x, t.files.get? x = s.files.get? x) o) :
    IsAtomic s output o := by
  constructor
  · rintro t rfl
    exact h
  · rintro e t rfl
    exact h

/-- Archives are created, projects compressed and submissions packaged atomically, if nothing is in the place of the
draft.  Packaging takes a temporary directory that is new and to which the path of the package does not lead. -/
theorem isAtomic_of_free_draft (hfree : s.node? false (output.addSuffix ".tmp") = none) :
    (∀ format source top paths, IsAtomic s output ((Archive.create format source output top paths).perform s)) ∧
    (∀ policy project, IsAtomic s output ((compress policy project output).perform s)) ∧
    ∀ request clone, request.output = output → request.clone = .ofString clone → s.Ready → Avoids s output s.scratch →
      Avoids s (output.addSuffix ".tmp") s.scratch → IsAtomic s output ((pack request).perform s) := by
  have hsame : ∀ {act : Action Unit}, Ensures (SameStore s) act (fun _ t => Replaced s output t.files)
      (fun _ t => t.files = s.files) → IsAtomic s output (act.perform s) := fun hact =>
    isAtomic_of_ends ((hact s (.refl s)).mono (fun _ _ ht => ht) fun _ t ht x => by rw [ht])
  refine ⟨fun format source top paths => hsame (Archive.create_ensures format source top paths hfree),
    fun policy project => hsame (compress_ensures policy project hfree), ?_⟩
  rintro request clone rfl hclone hs houtput hdraft
  exact isAtomic_of_ends (pack_ensures hs (hclone ▸ Path.isRead_ofString clone) houtput hdraft hfree)

/-- A package is made, and so is the archive of a project, but there is no archive with a missing file. -/
theorem sampleRequest_isAtomic :
    let s := sampleSession []
    let request := sampleRequest ["c"] "b.zip"
    let missing := Archive.create .tar request.clone request.output none (some [request.clone.child "x"])
    let compressed := compress ⟨.everything, request.clone, 0⟩ request.clone request.output
    s.node? false (request.output.addSuffix ".tmp") = none ∧
    ((missing.perform s).1.isOk = false ∧ IsAtomic s request.output (missing.perform s)) ∧
    ((compressed.perform s).1 = .ok () ∧ IsAtomic s request.output (compressed.perform s)) ∧
    (((pack request).perform s).1 = .ok () ∧ IsAtomic s request.output ((pack request).perform s)) := by
  intro s request missing compressed
  have hunlinked : s.Unlinked := by decide +kernel
  have hrequest : request.Apart s := Request.apart_of_unlinked hunlinked (by decide +kernel)
  have hfree : s.node? false (request.output.addSuffix ".tmp") = none := by decide +kernel
  obtain ⟨hcreate, hcompress, hpack⟩ := isAtomic_of_free_draft hfree
  have hclone : request.clone = .ofString "c" := by decide +kernel
  have hatomic := hpack request "c" rfl hclone hunlinked.ready hrequest.output hrequest.draft
  exact ⟨hfree, ⟨by decide +kernel, hcreate _ _ _ _⟩, ⟨by decide +kernel, hcompress _ _⟩, by decide +kernel, hatomic⟩

end Submission

end Handout

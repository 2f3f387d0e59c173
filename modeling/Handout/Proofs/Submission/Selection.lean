import Handout.Proofs.Archive.RoundTrip
import Handout.Proofs.Project.Classification
import Handout.Proofs.Submission.Atomic
import Handout.Proofs.Submission.Membership

/-!
# What is submitted of a project

The student submits the files at the top of a project, the student's files, and the directories that lead to these.
In a project without links this depends on the configuration and on what is stored (`submittedPaths_eq`,
`mem_submittedNames`), and so do the entries of the archive that is sent (`compress_written`).
-/

namespace Handout

open Handout.Action Session

variable {s t : Session} {project output : Path} {d : Location} {e : Ecosystem} {c : Config} {policy : Policy}
  {content : Content} {rel : List String}

/-- A session differs from another one at most in the configurations that policies have loaded. -/
def Session.Loading (s t : Session) : Prop := ∃ loaded, t = { s with loaded }

theorem Session.Loading.refl (s : Session) : Loading s s := ⟨s.loaded, rfl⟩

theorem Session.Loading.load (h : Loading s t) (loaded : List (Nat × Config)) : Loading s { t with loaded } := by
  obtain ⟨_, rfl⟩ := h
  exact ⟨loaded, rfl⟩

theorem Session.Loading.files (h : Loading s t) : t.files = s.files := by
  obtain ⟨_, rfl⟩ := h
  rfl

theorem Session.Loading.listed (h : Loading s t) (hs : s.Listed project d) : t.Listed project d := by
  obtain ⟨_, rfl⟩ := h
  exact ⟨⟨hs.sound.files, hs.sound.workingDir⟩, ⟨hs.reaches.hasZero, hs.reaches.find⟩, hs.directory, hs.noLink, hs.unlocked⟩

theorem Session.Straight.log (h : s.Straight project d) (record : LogRecord) :
    Straight { s with log := s.log ++ [record] } project d :=
  ⟨⟨h.sound.files, h.sound.workingDir⟩, ⟨h.reaches.hasZero, h.reaches.find⟩, h.directory, h.noLink⟩

theorem Session.Straight.rooted (h : s.Straight project d) : s.Rooted project d := ⟨h.sound, h.leads, h.noLink⟩

theorem Session.Listed.rooted (h : s.Listed project d) : s.Rooted project d := h.straight.rooted

namespace Submission

/-! ### The student's files -/

/-- At some names there is a file of the student. -/
def IsStudentAt (e : Ecosystem) (c : Config) (content : Content) (rel : List String) : Prop :=
  isFileNode (content rel) = true ∧ Policy.IsStudent e c rel

instance (e : Ecosystem) (c : Config) (content : Content) (rel : List String) : Decidable (IsStudentAt e c content rel) :=
  inferInstanceAs (Decidable (_ ∧ _))

/-- At some names there is something that is submitted: a file at the top, a file of the student, or a directory that
leads to one. -/
def IsSubmitted (e : Ecosystem) (c : Config) (content : Content) (rel : List String) : Prop :=
  isFileNode (content rel) = true ∧ rel.length = 1 ∨ IsStudentAt e c content rel ∨
    rel ≠ [] ∧ ∃ file, IsStudentAt e c content file ∧ rel <+: file ∧ rel ≠ file

theorem IsStudentAt.ne_nil (h : IsStudentAt e c content rel) : rel ≠ [] := by
  rintro rfl
  have hverdict := h.2.2
  unfold Policy.verdict at hverdict
  rw [if_neg (fun h => Bool.false_ne_true h.1), if_pos (.inr rfl)] at hverdict
  cases hverdict

theorem IsSubmitted.isIncluded (h : IsSubmitted e c content rel) : IsIncluded (IsStudentAt e c content) content rel := h

theorem IsSubmitted.ne_nil (h : IsSubmitted e c content rel) : rel ≠ [] :=
  h.isIncluded.ne_nil fun _ hstudent => hstudent.ne_nil

/-- What is submitted is there. -/
theorem IsSubmitted.exists {f : Files} (hf : f.WellFormed) (h : IsSubmitted e c (f.content d) rel) : f.get? (d ++ rel) ≠ none :=
  h.isIncluded.exists hf fun _ hstudent => hstudent.1

/-- The student's files of a project, when the policy tells which files it takes. -/
theorem students_straight {P : Session → Prop} {f : Files} {takes : List String → Bool}
    (hP : ∀ t, P t → t.Straight project d ∧ t.files = f) (hd : f.get? d = some .directory)
    (htakes : ∀ rel, isFileNode (f.content d rel) = true →
      Ensures P (policy.isStudentFile (project.append rel) project none) (fun b t => P t ∧ b = takes rel) fun _ _ => True) :
    Ensures P
      (Action.below project fun p => do
        if ← Action.isFile p then policy.isStudentFile p project none else return false)
      (fun files t => P t ∧
        files = ((f.listing d).filter fun rel => isFileNode (f.content d rel) && takes rel).map project.append)
      fun _ _ => True := by
  refine below_straight hP (fun _ _ _ _ _ => trivial) hd fun rel hrel => ?_
  have hisFile : Ensures P (Action.isFile (project.append rel)) (fun b t => P t ∧ b = isFileNode (f.content d rel))
      fun _ _ => True := by
    refine Ensures.query fun t ht => ?_
    obtain ⟨hstraight, rfl⟩ := hP t ht
    unfold Session.isFile?
    split
    · trivial
    · rw [(hstraight.reaches_append hrel).look]
      exact ⟨ht, rfl⟩
  refine hisFile.bind fun b => Ensures.of_and fun hb => ?_
  cases b with
  | false => exact Ensures.pure fun t ht => ⟨ht, by rw [← hb, Bool.false_and]⟩
  | true =>
    refine (htakes rel hb.symm).mono (fun _ ht => ht) (fun b t ht => ⟨ht.1, ?_⟩) fun _ _ _ => trivial
    rw [← hb, Bool.true_and, ht.2]

/-! ### All that is submitted -/

/-- The paths of a project that are submitted, in order, as told by its configuration and by what is stored. -/
def submission (project : Path) (e : Ecosystem) (c : Config) (f : Files) (d : Location) : List Path :=
  let files := ((f.listing d).filter fun rel => IsStudentAt e c (f.content d) rel).map project.append
  let top := (sortNames ((f.names d).filter fun name => isFileNode (f.content d [name]))).map project.child
  Path.sort (Path.sort (directoriesTo project files ++ files) ++ top).eraseDups

/-- The files at the top of a directory. -/
theorem filesIn_straight (hs : s.Straight project d) {top : List Path} (h : ((filesIn project).perform s).1 = .ok top) :
    top = (sortNames ((s.files.names d).filter fun name => isFileNode (s.files.content d [name]))).map project.child := by
  obtain ⟨names, hnames, rfl⟩ := entriesWhere_eq_ok looks_isFile h
  have hunlocked : s.locked.contains project = false := by
    by_contra hlocked
    unfold Session.names? at hnames
    rw [show project.written.path = project from rfl, if_pos (by simpa using hlocked)] at hnames
    cases hnames
  obtain ⟨loc, hfind, rfl⟩ := names?_eq_ok hnames
  obtain rfl := (leadsTo_iff_find.2 hfind).unique hs.leads
  refine congrArg (fun names => (sortNames names).map project.child) (List.filter_congr fun name hname => ?_)
  have hreaches : s.Reaches (project.append [name]) (loc ++ [name]) := hs.reaches_append (Files.mem_names.1 hname)
  have hparent : (project.append [name]).parent = project := by simp [Path.parent, Path.append]
  show decide (s.isFile? (project.child name) = .ok true) = isFileNode (s.files.get? (loc ++ [name]))
  unfold Session.isFile?
  rw [Path.child_eq_append, hreaches.look, hparent, hunlocked, if_neg Bool.false_ne_true]
  cases hnode : isFileNode (s.files.get? (loc ++ [name])) <;> simp [Except.map, hnode]

/-- What is submitted of a project in which there are no links, when the policy tells which files it takes. -/
theorem ok_of_submittedPaths {P : Session → Prop} {takes : List String → Bool} (hs : s.Straight project d)
    (hP : ∀ t, P t → t.Straight project d ∧ t.files = s.files) (hstart : P s)
    (htakes : ∀ rel, isFileNode (s.files.content d rel) = true →
      Ensures P (policy.isStudentFile (project.append rel) project none) (fun b t => P t ∧ b = takes rel) fun _ _ => True)
    {paths : List Path} (h : (submittedPaths policy project).perform s = (.ok paths, t)) :
    P t ∧ paths = includedPaths project (fun rel => isFileNode (s.files.content d rel) && takes rel) s.files d := by
  unfold submittedPaths studentPaths at h
  obtain ⟨top, u, htop, hrest⟩ := ok_of_perform_bind h
  obtain rfl : u = s := by
    rw [← (looks_filesIn project).during .list project s, htop]
  obtain rfl := filesIn_straight hs (congrArg Prod.fst (ok_of_perform_during htop))
  obtain ⟨students, v, hstudents, hpaths⟩ := ok_of_perform_bind hrest
  obtain ⟨files, v', hbelow, hsort⟩ := ok_of_perform_bind hstudents
  obtain ⟨hv, rfl⟩ := (students_straight hP hs.directory htakes).ends hstart hbelow
  cases hsort
  cases hpaths
  exact ⟨hv, rfl⟩

/-- What is submitted is what is included for the student's files. -/
theorem submission_eq_includedPaths (project : Path) (e : Ecosystem) (c : Config) (f : Files) (d : Location) :
    submission project e c f d = includedPaths project (fun rel => decide (IsStudentAt e c (f.content d) rel)) f d := rfl

/-- What is submitted of a project of an ecosystem. -/
theorem submittedPaths_eq (hs : s.Listed project d) (hkind : policy.kind = .ecosystem e)
    (hconfig : (policy.config.perform s).1 = .ok c) (hc : c.Inside) {paths : List Path}
    (h : (submittedPaths policy project).perform s = (.ok paths, t)) : paths = submission project e c s.files d := by
  have htakes : ∀ rel, isFileNode (s.files.content d rel) = true →
      Ensures (fun t => Loading s t ∧ (policy.config.perform t).1 = .ok c)
        (policy.isStudentFile (project.append rel) project none)
        (fun b t => (Loading s t ∧ (policy.config.perform t).1 = .ok c) ∧ b = decide (Policy.IsStudent e c rel))
        fun _ _ => True := by
    intro rel hnode
    have hrel := exists_of_isFileNode hnode
    refine (Policy.isStudentFile_ensures hkind (fun t loaded ht => ht.load loaded) (fun t ht => ⟨(ht.listed hs).rooted, ?_⟩) hc
      fun x hx => (hs.sound.files.proper_of_mem hrel hx).plain).mono (fun _ ht => ht) (fun _ _ ht => ht) fun _ _ _ => trivial
    rwa [ht.files]
  obtain ⟨-, rfl⟩ := ok_of_submittedPaths hs.straight (fun t ht => ⟨(ht.1.listed hs).straight, ht.1.files⟩)
    ⟨.refl s, hconfig⟩ htakes h
  rw [submission_eq_includedPaths]
  refine congrArg (fun mine => includedPaths project mine s.files d) (funext fun rel => ?_)
  rw [Bool.eq_iff_iff, Bool.and_eq_true, decide_eq_true_eq, decide_eq_true_eq]
  exact Iff.rfl

private theorem isIncluded_iff : IsIncluded (fun rel => decide (IsStudentAt e c content rel) = true) content rel ↔
    IsSubmitted e c content rel := by
  simp only [decide_eq_true_eq]
  exact Iff.rfl

private theorem student_found {f : Files} (rel : List String) (h : decide (IsStudentAt e c (f.content d) rel) = true) :
    rel ≠ [] ∧ isFileNode (f.content d rel) = true :=
  ⟨(of_decide_eq_true h).ne_nil, (of_decide_eq_true h).1⟩

/-! ### The archive that is sent -/

/-- The top-level directory of the archive of a project, which has the name of the project. -/
def topOf (d : Location) : Option Path := d.getLast?.map fun name => ⟨.relative, [name]⟩

theorem topNames_topOf (d : Location) : Archive.topNames (topOf d) = d.getLast?.toList := by
  unfold topOf
  cases d.getLast? <;> rfl

/-- The names of what is submitted below a project. -/
def submittedNames (project : Path) (e : Ecosystem) (c : Config) (f : Files) (d : Location) : List (List String) :=
  (submission project e c f d).map fun p => p.parts.drop project.parts.length

/-- The entries of the archive of a project. -/
def submissionEntries (project : Path) (e : Ecosystem) (c : Config) (f : Files) (d : Location) : List Archive.Entry :=
  (Archive.withTop (topOf d) (submittedNames project e c f d)).map (Archive.entryBelow .zip (topOf d) (f.content d))

theorem mem_submittedNames (hs : s.Sound) :
    rel ∈ submittedNames project e c s.files d ↔ IsSubmitted e c (s.files.content d) rel :=
  (mem_includedNames hs.files student_found).trans isIncluded_iff

theorem submission_eq (hs : s.Sound) :
    submission project e c s.files d = (submittedNames project e c s.files d).map project.append :=
  includedPaths_eq hs.files student_found

/-- The configuration of a policy does not depend on the log. -/
theorem perform_config_log (policy : Policy) (s : Session) (record : LogRecord) :
    (policy.config.perform { s with log := s.log ++ [record] }).1 = (policy.config.perform s).1 := by
  generalize ht : { s with log := s.log ++ [record] } = t
  have hview : SameView s t policy.configParent := by
    subst ht
    exact ⟨fun _ _ _ => rfl, fun _ _ _ _ => rfl, rfl⟩
  have hloaded : t.loaded = s.loaded := by
    subst ht
    rfl
  cases hl : s.loaded.lookup policy.number with
  | some c => rw [Policy.perform_config_of_loaded hl, Policy.perform_config_of_loaded (hloaded ▸ hl)]
  | none =>
    rw [Policy.perform_config_of_new hl, Policy.perform_config_of_new (hloaded ▸ hl), ← (agrees_load hview).same]
    cases ((Config.load policy.configParent).perform s).1 <;> rfl

/-- The top-level directory that is asked for. -/
theorem topOf_of_resolve? (hs : s.Straight project d) {root : Path} (h : s.resolve? project = .ok root) :
    (if root.name.isEmpty then none else some (Path.ofString root.name)) = topOf d := by
  obtain rfl := hs.rooted.eq_of_resolve?_project h
  unfold topOf Path.name Location.path
  cases hlast : d.getLast? with
  | none => rfl
  | some name =>
    have hname : IsName name :=
      (proper_of_exists hs.sound (by rw [hs.directory]; exact Option.some_ne_none _) (List.mem_of_getLast? hlast)).toIsName
    have hne : name.isEmpty = false := by
      rw [String.isEmpty_eq_false_iff]
      rintro rfl
      exact absurd hname.plain.1 (by decide)
    rw [Option.getD_some, hne, if_neg Bool.false_ne_true, Path.ofString_of_isName hname]
    rfl

theorem relative_of_topOf {top : Path} (h : topOf d = some top) : top.anchor = .relative := by
  obtain ⟨_, -, rfl⟩ := Option.map_eq_some_iff.1 h
  rfl

theorem plain_of_topOf (hs : s.Straight project d) : ∀ name ∈ Archive.topNames (topOf d), name ≠ ".." := by
  intro name hname
  rw [topNames_topOf, Option.mem_toList] at hname
  exact (proper_of_exists hs.sound (by rw [hs.directory]; exact Option.some_ne_none _) (List.mem_of_getLast? hname)).plain.2

/-- Where nothing that was there has changed, the entries are those of what is submitted. -/
theorem perform_submissionEntries (hs : s.Listed project d) (e : Ecosystem) (c : Config) (draft : Path)
    (hw : t.workingDir = s.workingDir) (hkeep : ∀ x, s.files.get? x ≠ none → t.files.get? x = s.files.get? x) :
    (Archive.entries .zip draft project (topOf d) ((submittedNames project e c s.files d).map project.append)).perform t =
      (.ok (submissionEntries project e c s.files d), t) := by
  have hexists : ∀ rel ∈ submittedNames project e c s.files d, s.files.get? (d ++ rel) ≠ none := fun rel hrel =>
    ((mem_submittedNames hs.sound).1 hrel).exists hs.sound.files
  exact Archive.perform_entriesBelow hs hexists (fun _ => relative_of_topOf) (plain_of_topOf hs.straight) nofun hw hkeep

/-- When a project could be compressed, the paths that are submitted have been archived by way of a draft. -/
theorem ok_of_compress (hs : s.Straight project d) (h : (compress policy project output).perform s = (.ok (), t)) :
    ∃ record record' paths u, (submittedPaths policy project).perform { s with log := s.log ++ [record] } = (.ok paths, u) ∧
      (overwriteAtomic output ".tmp" fun draft => do
        let es ← Archive.entries .zip draft.path project (topOf d) paths
        writeFile draft (Archive.encode .zip es)).perform { u with log := u.log ++ [record'] } = (.ok (), t) := by
  unfold compress at h
  rw [perform_bind_ok (perform_note ..)] at h
  generalize (⟨_, _, _⟩ : LogRecord) = record at h
  obtain ⟨root, u, hroot, hrest⟩ := ok_of_perform_bind h
  obtain ⟨hresolve, rfl⟩ := Prod.mk.inj hroot
  obtain ⟨paths, u, hpaths, hcreate⟩ := ok_of_perform_bind hrest
  rw [topOf_of_resolve? (hs.log record) hresolve] at hcreate
  unfold Archive.create at hcreate
  dsimp only at hcreate
  rw [pure_bind, perform_bind_ok (perform_note ..)] at hcreate
  generalize (⟨_, _, _⟩ : LogRecord) = record' at hcreate
  exact ⟨record, record', paths, u, hpaths, ok_of_perform_during hcreate⟩

/-- When a project could be compressed, an archive of what is submitted has been written. -/
theorem compress_written (hs : s.Listed project d) (hkind : policy.kind = .ecosystem e)
    (hconfig : (policy.config.perform s).1 = .ok c) (hc : c.Inside) (hfree : s.node? false (output.addSuffix ".tmp") = none)
    (h : (compress policy project output).perform s = (.ok (), t)) :
    ReplacedBy s output (Archive.encode .zip (submissionEntries project e c s.files d)) t.files := by
  obtain ⟨record, record', paths, u, hpaths, hcreate⟩ := ok_of_compress hs.straight h
  have hnoted := hs.log record
  have hloading : Loading { s with log := s.log ++ [record] } u :=
    ((submittedPaths_preserves policy project fun v loaded (hv : Loading _ v) => hv.load loaded).ensures).ends (.refl _) hpaths
  obtain rfl := submittedPaths_eq hnoted hkind ((perform_config_log policy s record).trans hconfig) hc hpaths
  rw [submission_eq hnoted.sound] at hcreate
  have hsame : SameStore s { u with log := u.log ++ [record'] } := by
    obtain ⟨_, rfl⟩ := hloading
    exact ⟨rfl, rfl⟩
  have hentries : ∀ loc v es, Drafted { u with log := u.log ++ [record'] } (output.addSuffix ".tmp") loc [] v →
      ((Archive.entries .zip (output.addSuffix ".tmp") project (topOf d)
        ((submittedNames project e c s.files d).map project.append)).perform v).1 = .ok es →
      es = submissionEntries project e c s.files d := by
    intro loc v es hv hes
    have hkeep : ∀ x, s.files.get? x ≠ none → v.files.get? x = s.files.get? x := by
      intro x hx
      rw [← hsame.files] at hx ⊢
      refine hv.wrote.others x ?_
      rintro rfl
      exact hx hv.free
    rw [perform_submissionEntries hs e c (output.addSuffix ".tmp") (hv.wrote.workingDir.trans hsame.workingDir) hkeep] at hes
    exact (Except.ok.inj hes).symm
  obtain ⟨es, rfl, hreplaced, -⟩ := (overwriteAtomic_ensures (f := Archive.encode .zip)
    (fun draft => Archive.looks_entries .zip draft.path project (topOf d) _) ((hsame.node? false _).trans hfree)
    hentries).ends rfl hcreate
  exact hsame.replacedBy hreplaced

end Submission

end Handout

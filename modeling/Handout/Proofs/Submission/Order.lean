import Handout.Archive.Search
import Handout.Proofs.Exercise.Walk
import Handout.Proofs.Files.OrderBlind
import Handout.Proofs.Project.Ecosystem
import Handout.Proofs.Project.Spelling
import Handout.Submission.Compress

/-!
# The order of entries does not matter

Two sessions that differ only in the order in which directories list their entries are told apart by no traversal, walk
or archive (`reordered_outcomes`): each of these sorts what it has listed before it goes on.  The searches that inspect
every entry of a directory in the order of listing are `filesIn` and `Ecosystem.holdsProjectFile`.  On a link to a name
that is too long such an inspection fails, and then the order decides on what is told: of two such links the first one
is reported, and a project is found if its mark comes before the link (`sampleLongNames_differ`).  `BlindUnless` and
`Loosely` follow these failures through a search and through the compression of a project.
-/

namespace Handout

open Handout.Action Session

variable {α β : Type} {s t u : Session} {p dir : Path}

/-! ### Exercises -/

namespace Exercise

variable {σ : Type} {visit : σ → Path → Action σ}

private theorem preserves_isPruned (dir : Path) : Preserves (fun u => s.Reordered u) (isPruned dir) := by
  have hlog : ∀ u record, s.Reordered u → s.Reordered { u with log := u.log ++ [record] } := fun u record hu =>
    hu.trans (hu.symm.self.log u.log _)
  unfold isPruned
  split
  · exact .pure _
  · refine (Looks.query _).preserves.tryCatch fun e => ?_
    cases e with
    | system e => exact (Preserves.note hlog _ _ _).bind fun _ => .pure _
    | _ => exact .throw _

private theorem orderBlind_isPruned (dir : Path) : OrderBlind (isPruned dir) := by
  unfold isPruned
  split
  · exact .pure _
  · refine (orderBlind_isFile _).tryCatch fun e => ?_
    cases e with
    | system e => exact (OrderBlind.note _ _ _).bind fun _ => .pure _
    | _ => exact .throw _

/-- A directory that cannot be inspected is left out, so the question does not fail. -/
private theorem not_isPruned_ne_error (dir : Path) (s : Session) (e : Failure) :
    ((do return !(← isPruned dir) : Action Bool).perform s).1 ≠ .error e := by
  have hanswer : ∃ b t, (isPruned dir).perform s = (.ok b, t) := by
    unfold isPruned
    split
    · exact ⟨_, _, rfl⟩
    · rw [perform_tryCatch, isFile, perform_query]
      rcases hfile : s.isFile? (dir.child ignoreFileName) with e' | b
      · obtain ⟨code, rfl⟩ := refused_of_isFile? hfile
        exact ⟨_, _, rfl⟩
      · exact ⟨_, _, rfl⟩
  obtain ⟨b, t, hb⟩ := hanswer
  rw [perform_bind_ok hb]
  exact nofun

private theorem readNames_bind_relates {k k' : List String → Action β} {Q : β → Session → Session → Prop}
    (hk : ∀ l l', l.Perm l' → Relates Session.Reordered (k l) (k' l') Q (Same fun _ => Session.Reordered)) :
    Relates Session.Reordered (readNames dir >>= k) (readNames dir >>= k') Q (Same fun _ => Session.Reordered) := by
  intro s t hst
  rw [perform_bind, perform_bind, readNames, perform_tryCatch, perform_tryCatch, names, perform_query, perform_query]
  rcases hst.names? dir.written with ⟨l, l', hl, hl', hperm⟩ | ⟨e, he, he'⟩
  · rw [hl, hl']
    exact hk l l' hperm s t hst
  · rw [he, he']
    cases e with
    | system e => exact hk [] [] (List.Perm.refl _) _ _ (hst.log _ _)
    | _ => exact ⟨rfl, hst⟩

/-- The subdirectories are sorted when it has been found out which ones to enter, in the order in which they are
listed. -/
theorem orderBlind_foldFiles (h : ∀ acc p, OrderBlind (visit acc p)) (levels : Nat) (acc : σ) (dir : Path) :
    OrderBlind (foldFiles visit levels acc dir) := by
  induction levels generalizing acc dir with
  | zero => exact .pure _
  | succ levels ih =>
    unfold foldFiles
    refine ⟨readNames_bind_relates fun l l' hperm => Relates.get_bind fun s t hst => ?_⟩
    rintro _ _ ⟨rfl, rfl⟩
    simp only [hst.node?]
    refine filterM_bind_meets hst (hperm.filter _) (fun c => OrderBlind.answers
      ((orderBlind_isPruned (dir.child c)).bind fun _ => .pure _) ((preserves_isPruned _).bind fun _ => .pure _))
      (fun kept kept' hkept => ?_) fun e f u u' _ he => ?_
    · rw [sortNames_eq_of_perm hkept, sortNames_eq_of_perm (hperm.filter _)]
      refine (OrderBlind.bind (.foldlM (fun acc c _ => h acc _) acc) fun acc => .foldlM (fun acc c _ => ?_) acc).relates
      refine .get_bind (fun s t hst => by simp only [hst.node?]) fun s => ?_
      split
      · exact .pure _
      · exact ih _ _
    · obtain ⟨c, -, he⟩ := he
      exact absurd he (not_isPruned_ne_error _ _ _)

theorem orderBlind_files (root : Path) : OrderBlind (files root) :=
  .get_bind (fun s t hst => by simp only [hst.files.height]) fun s => orderBlind_foldFiles (fun _ _ => .pure _) _ _ _

end Exercise

/-! ### Archives -/

namespace Archive

private theorem orderBlind_zipEntry (source name : Path) : OrderBlind (zipEntry source name) := by
  refine (orderBlind_locate _ _).bind fun place => ?_
  split
  · exact .throw _
  · split
    · exact .throw _
    · exact .pure _

private theorem orderBlind_tarEntry (source name : Path) : OrderBlind (tarEntry source name) := by
  refine (orderBlind_locate _ _).bind fun place => ?_
  split
  · exact .throw _
  · exact .pure _

private theorem orderBlind_entriesFor (format : Format) (draft source name : Path) :
    OrderBlind (entriesFor format draft source name) := by
  cases format with
  | zip => exact (orderBlind_zipEntry _ _).bind fun _ => .pure _
  | tar =>
    refine OrderBlind.bind ?_ fun b => ?_
    · exact .get_bind (fun s t hst => by simp only [hst.workingDir]) fun _ => .pure _
    · split
      · exact .pure _
      · exact (orderBlind_tarEntry _ _).bind fun _ => .pure _

private theorem orderBlind_entriesBelow (format : Format) (draft source : Path) (top : Option Path) (p : Path) :
    OrderBlind (entriesBelow format draft source top p) := by
  unfold entriesBelow
  split
  · exact .throw _
  · exact orderBlind_entriesFor _ _ _ _

private theorem orderBlind_entries (format : Format) (draft source : Path) (top : Option Path) (paths : List Path) :
    OrderBlind (entries format draft source top paths) := by
  have hrest : ∀ first : List Entry, OrderBlind (do
      let rest ← paths.mapM (entriesBelow format draft source top)
      return first ++ rest.flatten) :=
    fun first => (OrderBlind.mapM fun p _ => orderBlind_entriesBelow _ _ _ _ p).bind fun _ => .pure _
  unfold entries
  cases top with
  | none => exact hrest []
  | some name => exact (orderBlind_entriesFor _ _ _ _).bind hrest

theorem orderBlind_create (format : Format) (source output : Path) (top : Option Path) (paths : Option (List Path)) :
    OrderBlind (create format source output top paths) := by
  have hwrite : ∀ paths, OrderBlind (do
      Action.note .info .archive s!"writing {format.name} archive {output.toString}"
      Action.during .writeArchive output <| Action.overwriteAtomic output ".tmp" fun draft => do
        let es ← entries format draft.path source top paths
        Action.writeFile draft (encode format es)) := fun paths =>
    (OrderBlind.note _ _ _).bind fun _ => (orderBlind_overwriteAtomic
      (fun _ => (orderBlind_entries _ _ _ _ _).bind fun _ => orderBlind_writeFile _ _) _ _).during _ _
  unfold create
  cases paths with
  | none => exact (orderBlind_descendants _ _).bind hwrite
  | some paths => exact (OrderBlind.pure paths).bind hwrite

end Archive

/-! ### Policies -/

theorem Config.orderBlind_load (project : Path) : OrderBlind (Config.load project) := by
  refine (orderBlind_isFile _).bind fun b => ?_
  split
  · refine ((orderBlind_readFile _).during _ _).bind fun data => ?_
    split
    · exact .throw _
    · exact .query fun _ _ _ => rfl
  · exact .pure _

theorem Config.orderBlind_resolve (project : Path) (entries : List Path) : OrderBlind (Config.resolve project entries) :=
  (Action.orderBlind_resolve _).bind fun _ => .mapM fun _ _ => Action.orderBlind_resolve _

namespace Policy

variable (policy : Policy)

private theorem orderBlind_config : OrderBlind policy.config := by
  refine .get_bind (fun s t hst => by simp only [hst.loaded]) fun s => ?_
  split
  · exact .pure _
  · refine (Config.orderBlind_load _).bind fun c => (OrderBlind.modify fun s t hst => ?_).bind fun _ => .pure _
    rw [← hst.loaded]
    exact hst.load _

private theorem orderBlind_isConfigured (project absolute : Path) (entries : List Path) :
    OrderBlind (isConfigured project absolute entries) := (Config.orderBlind_resolve _ _).bind fun _ => .pure _

private theorem orderBlind_classifyExisting (e : Ecosystem) (c : Config) (p project : Path) (updating : Bool) :
    OrderBlind (classifyExisting e c p project updating) := by
  refine (orderBlind_resolve _).bind fun absolute => (orderBlind_resolve _).bind fun root => ?_
  have hforced : OrderBlind (if updating then isConfigured root absolute c.forceUpdate else return false) := by
    split
    · exact orderBlind_isConfigured _ _ _
    · exact .pure _
  refine hforced.bind fun b => ?_
  cases b with
  | true => exact .pure _
  | false =>
    refine (orderBlind_isConfigured root absolute c.extraExerciseFiles).bind fun b => ?_
    cases b with
    | true => exact .pure _
    | false =>
      by_cases hroot : absolute = root
      · simp only [if_pos hroot]
        exact .pure _
      · simp only [if_neg hroot]
        refine (orderBlind_isConfigured root absolute c.extraStudentFiles).bind fun b => ?_
        cases b <;> exact .pure _

private theorem orderBlind_classify (p project : Path) (given : Option Config) (updating : Bool) :
    OrderBlind (policy.classify p project given updating) := by
  unfold classify
  split
  · exact .pure _
  · split
    · exact .pure _
    · refine (orderBlind_resolve _).bind fun _ => (orderBlind_resolve _).bind fun _ => ?_
      split <;> exact .pure _
  · rename_i e _
    have hrest : ∀ c, OrderBlind (do
        if !(← pathExists p) then return Classification.exerciseFile
        if p.name = Config.fileName then return .exerciseFile
        classifyExisting e c p project updating) := by
      intro c
      refine (orderBlind_pathExists p).bind fun b => ?_
      cases b with
      | false => exact .pure _
      | true =>
        by_cases hname : p.name = Config.fileName
        · simp only [if_pos hname]
          exact .pure _
        · simp only [if_neg hname]
          exact orderBlind_classifyExisting e c p project updating
    cases given with
    | some c => exact hrest c
    | none => exact (orderBlind_config policy).bind hrest

theorem orderBlind_isStudentFile (p project : Path) (given : Option Config) :
    OrderBlind (policy.isStudentFile p project given) := (orderBlind_classify policy _ _ _ _).bind fun _ => .pure _

end Policy

/-! ### Searching -/

/-- The path of which a failure says that a name is too long. -/
def Failure.tooLong? : Failure → Option String
  | .system (.call .nameTooLong path) => some path
  | .activity _ _ (.call .nameTooLong path) => some path
  | _ => none

/-- Whether a failure says that a name is too long. -/
def Failure.tellsTooLong (e : Failure) : Bool := e.tooLong?.isSome

private theorem tellsTooLong_of_refused {e : Failure} (h : Refused e) : e.tellsTooLong = true := by
  obtain ⟨w, rfl⟩ := h
  rfl

namespace Ecosystem

/-- Whether some element passes a test that only looks, if the test does not fail on one. -/
private theorem anyOf_cases {test : α → Action Bool} (h : ∀ a, Looks (test a)) (s : Session) (l : List α) :
    (∃ a ∈ l, ∃ e, ((test a).perform s).1 = .error e ∧ ((anyOf test l).perform s).1 = .error e) ∨
      ∃ b, (b = true ↔ ∃ a ∈ l, ((test a).perform s).1 = .ok true) ∧ (anyOf test l).perform s = (.ok b, s) := by
  induction l with
  | nil => exact .inr ⟨false, by simp, rfl⟩
  | cons a l ih =>
    have hlooks := h a s
    rcases ha : (test a).perform s with ⟨e | b, s'⟩
    · exact .inl ⟨a, List.mem_cons_self, e, by rw [ha], by rw [anyOf, perform_bind_error ha]⟩
    · rw [ha] at hlooks
      obtain rfl : s' = s := hlooks
      rw [anyOf, perform_bind_ok ha]
      cases b with
      | true => exact .inr ⟨true, by simp [ha], rfl⟩
      | false =>
        rcases ih with ⟨x, hx, e, he, hfails⟩ | ⟨b, hb, hok⟩
        · exact .inl ⟨x, List.mem_cons_of_mem _ hx, e, he, hfails⟩
        · exact .inr ⟨b, by simp [ha, hb], hok⟩

private theorem orderBlind_anyOf {test : α → Action Bool} (h : ∀ a, OrderBlind (test a)) (l : List α) :
    OrderBlind (anyOf test l) := by
  induction l with
  | nil => exact .pure _
  | cons a l ih =>
    refine (h a).bind fun b => ?_
    cases b with
    | true => exact .pure _
    | false => exact ih

private theorem visibleNames_cases (hst : s.Reordered t) (dir : Path) :
    (∃ l l', (visibleNames dir).perform s = (.ok l, s) ∧ (visibleNames dir).perform t = (.ok l', t) ∧ l.Perm l') ∨
      ∃ e, (visibleNames dir).perform s = (.error e, s) ∧ (visibleNames dir).perform t = (.error e, t) := by
  unfold visibleNames
  rw [perform_tryCatch, perform_tryCatch, names, perform_query, perform_query]
  rcases hst.names? dir.written with ⟨l, l', hl, hl', hperm⟩ | ⟨e, he, he'⟩
  · rw [hl, hl']
    exact .inl ⟨l, l', rfl, rfl, hperm⟩
  · rw [he, he']
    dsimp only
    split
    · exact .inl ⟨[], [], rfl, rfl, List.Perm.refl _⟩
    · exact .inr ⟨_, rfl, rfl⟩

private theorem orderBlind_leadsToProjectFile (path : Path) : OrderBlind (leadsToProjectFile path) := by
  refine (orderBlind_isDirectory path).bind fun b => ?_
  cases b with
  | true =>
    refine ⟨fun s t hst => ?_⟩
    rcases visibleNames_cases hst path with ⟨l, l', hl, hl', hperm⟩ | ⟨e, he, he'⟩
    · rw [if_pos rfl, perform_bind_ok hl, perform_bind_ok hl']
      exact ⟨hperm.any_eq, hst⟩
    · rw [if_pos rfl, perform_bind_error he, perform_bind_error he']
      exact ⟨rfl, hst⟩
  | false => exact .pure _

/-- Only a name that is too long makes this question fail. -/
private theorem refused_of_leadsToProjectFile {path : Path} {e : Failure}
    (h : ((leadsToProjectFile path).perform s).1 = .error e) : Refused e := by
  unfold leadsToProjectFile at h
  rcases hdir : s.isDirectory? path with e' | b
  · rw [perform_bind_error (by rw [isDirectory, perform_query, hdir])] at h
    cases h
    exact refused_of_look (error_of_map hdir)
  rw [perform_bind_ok (by rw [isDirectory, perform_query, hdir])] at h
  cases b with
  | false => cases h
  | true =>
    have hz : ¬ path.hasZero = true := by
      intro hz
      unfold Session.isDirectory? Session.look at hdir
      rw [if_pos hz] at hdir
      cases hdir
    obtain ⟨d, hl⟩ := leadsTo_of_isDirectory? hdir
    have hnames : ∃ l, (visibleNames path).perform s = (.ok l, s) := by
      unfold visibleNames
      rw [perform_tryCatch, names, perform_query]
      by_cases hlocked : s.locked.contains path = true
      · rw [show s.names? path.written = .error (refuse .denied path.written) from if_pos hlocked]
        exact ⟨_, rfl⟩
      · unfold Session.names?
        rw [show path.written.path = path from rfl, if_neg hlocked, if_neg hz, leadsTo_iff_find.1 hl]
        exact ⟨_, rfl⟩
    obtain ⟨l, hnames⟩ := hnames
    rw [if_pos rfl, perform_bind_ok hnames] at h
    cases h

/-- If entries are asked until one answers yes, and one of them cannot answer, the order decides on what comes of it. -/
private theorem holdsProjectFile_unless (dir : Path) :
    BlindUnless Failure.tellsTooLong (holdsProjectFile dir) := by
  refine ⟨fun s t hst => ?_⟩
  unfold holdsProjectFile
  rcases visibleNames_cases hst dir with ⟨l, l', hl, hl', hperm⟩ | ⟨e, he, he'⟩
  · rw [perform_bind_ok hl, perform_bind_ok hl', hperm.any_eq]
    split
    · exact .inl ⟨rfl, hst⟩
    · have hlooks : ∀ c, Looks (leadsToProjectFile (dir.child c)) := fun c => looks_leadsToProjectFile _
      have hlong : ∀ {s : Session} {c e}, ((leadsToProjectFile (dir.child c)).perform s).1 = .error e →
          e.tellsTooLong = true := fun he => tellsTooLong_of_refused (refused_of_leadsToProjectFile he)
      rcases anyOf_cases hlooks s l with ⟨c, -, e, he, hfails⟩ | ⟨b, hb, hok⟩
      · exact .inr (.inl ⟨e, hfails, hlong he⟩)
      · rcases anyOf_cases hlooks t l' with ⟨c, -, e, he, hfails⟩ | ⟨b', hb', hok'⟩
        · exact .inr (.inr ⟨e, hfails, hlong he⟩)
        · rw [hok, hok']
          refine .inl ⟨Bool.eq_iff_iff.2 (hb.trans (Iff.trans ?_ hb'.symm)), hst⟩
          refine exists_congr fun c => ?_
          rw [hperm.mem_iff, ((orderBlind_leadsToProjectFile (dir.child c)).sameOutcome hst).1]
  · rw [perform_bind_error he, perform_bind_error he']
    exact .inl ⟨rfl, hst⟩

private theorem recognizes_unless (e : Ecosystem) (project : Path) :
    BlindUnless Failure.tellsTooLong (e.recognizes project) := by
  cases e with
  | csharp =>
    refine (orderBlind_isDirectory _).unless.bind fun b => ?_
    cases b with
    | true => exact holdsProjectFile_unless _
    | false => exact (OrderBlind.pure _).unless
  | _ => exact (orderBlind_anyOf (fun _ => orderBlind_isFile _) _).unless

theorem isProjectRoot_unless (path : Path) : BlindUnless Failure.tellsTooLong (isProjectRoot path) := by
  have hfirst : ∀ es, BlindUnless Failure.tellsTooLong (firstOf path es) := by
    intro es
    induction es with
    | nil => exact (OrderBlind.pure _).unless
    | cons e es ih =>
      refine (recognizes_unless e path).bind fun b => ?_
      cases b with
      | true => exact (OrderBlind.pure _).unless
      | false => exact ih
  refine (orderBlind_isDirectory _).unless.bind fun b => ?_
  cases b with
  | true => exact (hfirst _).bind fun _ => (OrderBlind.pure _).unless
  | false => exact (OrderBlind.pure _).unless

end Ecosystem

/-! ### Compressing -/

namespace Submission

/-- One failure in both sessions, or in each one a failure that tells of a name that is too long. -/
private def Loosely (e f : Failure) (s t : Session) : Prop :=
  (e = f ∨ e.tellsTooLong = true ∧ f.tellsTooLong = true) ∧ s.Reordered t

private theorem loosely {act : Action α} (h : OrderBlind act) :
    Relates Session.Reordered act act (fun _ => Session.Reordered) Loosely :=
  h.relates.mono (fun _ _ hst => hst) (fun _ _ _ hst => hst) fun _ _ _ _ hst => ⟨.inl hst.1, hst.2⟩

private theorem filesIn_loosely (dir : Path) :
    Relates Session.Reordered (filesIn dir) (filesIn dir) (fun _ => Session.Reordered) Loosely :=
  (filesIn_relates dir).mono (fun _ _ hst => hst) (fun _ _ _ hst => hst) fun _ _ _ _ hst =>
    ⟨hst.1.imp_right fun h => ⟨tellsTooLong_of_refused h.1, tellsTooLong_of_refused h.2⟩, hst.2⟩

private theorem topFiles_loosely (project : Path) :
    Relates Session.Reordered (during .list project (filesIn project)) (during .list project (filesIn project))
      (fun _ => Session.Reordered) Loosely := by
  refine (filesIn_relates project).tryCatch fun e f => ?_
  rintro s t ⟨rfl | ⟨⟨w, rfl⟩, ⟨w', rfl⟩⟩, hst⟩
  · cases e <;> exact ⟨.inl rfl, hst⟩
  · exact ⟨.inr ⟨rfl, rfl⟩, hst⟩

private theorem orderBlind_studentPaths (policy : Policy) (project : Path) :
    OrderBlind (studentPaths policy project) := by
  refine (orderBlind_below (fun p => ?_) project).bind fun _ => .pure _
  refine (orderBlind_isFile p).bind fun b => ?_
  cases b with
  | true => exact policy.orderBlind_isStudentFile p project none
  | false => exact .pure _

private theorem compress_loosely (policy : Policy) (project output : Path) :
    Relates Session.Reordered (compress policy project output) (compress policy project output)
      (fun _ => Session.Reordered) Loosely := by
  refine (loosely (OrderBlind.note _ _ _)).bind fun _ => (loosely (orderBlind_resolve _)).bind fun _ => ?_
  refine Relates.bind ?_ fun paths => loosely (Archive.orderBlind_create _ _ _ _ _)
  refine (topFiles_loosely project).bind fun top => (loosely (orderBlind_studentPaths policy project)).bind fun _ => ?_
  exact loosely (OrderBlind.pure _)

private theorem sameOutcome_or_fails {act : Action α}
    (h : Relates Session.Reordered act act (fun _ => Session.Reordered) Loosely) (hst : s.Reordered t) :
    SameOutcome s t act ∨
      FailsWith Failure.tellsTooLong (act.perform s).1 ∧ FailsWith Failure.tellsTooLong (act.perform t).1 := by
  have hmeets := h s t hst
  unfold SameOutcome
  generalize act.perform s = o at hmeets ⊢
  generalize act.perform t = o' at hmeets ⊢
  rcases o with ⟨e | a, s'⟩ <;> rcases o' with ⟨f | b, t'⟩
  · obtain ⟨rfl | ⟨he, hf⟩, hst'⟩ := hmeets
    · exact .inl ⟨rfl, hst'⟩
    · exact .inr ⟨⟨e, rfl, he⟩, ⟨f, rfl, hf⟩⟩
  · exact hmeets.elim
  · exact hmeets.elim
  · exact .inl ⟨congrArg Except.ok hmeets.1, hmeets.2⟩

end Submission

/-! ### Two orders -/

/-- In whatever order directories list their entries, traversals, walks and archives come out the same.  A name that
is too long, to which a link leads, may be found before or after an answer: then the files in a directory cannot be
listed in any order, and a search for a project fails in some orders only. -/
theorem reordered_outcomes (h : s.Reordered t) :
    (∀ top includeTop, SameOutcome s t (descendants top includeTop true)) ∧
    (∀ top, SameOutcome s t (directoriesByDepth top)) ∧
    (∀ root, SameOutcome s t (Exercise.files root)) ∧
    (∀ format source output top paths, SameOutcome s t (Archive.create format source output top paths)) ∧
    (∀ dir, SameOutcome s t (filesIn dir) ∨
      FailsWith Failure.tellsTooLong ((filesIn dir).perform s).1 ∧ FailsWith Failure.tellsTooLong ((filesIn dir).perform t).1) ∧
    (∀ policy project output, SameOutcome s t (Submission.compress policy project output) ∨
      FailsWith Failure.tellsTooLong ((Submission.compress policy project output).perform s).1 ∧
        FailsWith Failure.tellsTooLong ((Submission.compress policy project output).perform t).1) ∧
    ∀ dir, SameOutcome s t (Archive.findProject? dir) ∨
      FailsWith Failure.tellsTooLong ((Archive.findProject? dir).perform s).1 ∨
        FailsWith Failure.tellsTooLong ((Archive.findProject? dir).perform t).1 := by
  refine ⟨fun top includeTop => ?_, fun top => ?_, fun root => ?_, fun format source output top paths => ?_,
    fun dir => ?_, fun policy project output => ?_, fun dir => ?_⟩
  · exact (orderBlind_descendants top includeTop).sameOutcome h
  · exact (orderBlind_directoriesByDepth top).sameOutcome h
  · exact (Exercise.orderBlind_files root).sameOutcome h
  · exact (Archive.orderBlind_create format source output top paths).sameOutcome h
  · exact Submission.sameOutcome_or_fails (Submission.filesIn_loosely dir) h
  · exact Submission.sameOutcome_or_fails (Submission.compress_loosely policy project output) h
  · exact ((findDirectory_unless Ecosystem.isProjectRoot_unless dir).meets s t h).imp_left Meets.sameOutcome

/-- A project beside a directory with two project roots, and links to a directory and to nothing. -/
def sampleOrder : Session where
  workingDir := []
  scratch := ["tmp"]
  files := ⟨[(["p"], .directory), (["p", "Makefile"], .file [1] false), (["p", "src"], .directory),
    (["p", "src", "b"], .file [2] false), (["p", "src", "a"], .file [3] false), (["p", "src", "up"], .link ".."),
    (["p", "src", ".git"], .directory), (["p", "src", ".git", "x"], .file [] false), (["w"], .directory),
    (["w", "b"], .directory), (["w", "b", "pom.xml"], .file [] false), (["w", "a"], .directory),
    (["w", "a", "src"], .directory), (["w", "a", "src", "z"], .link "nowhere"),
    (["w", "a", "src", "x.csproj"], .file [] false)]⟩

/-- The same, stored the other way round. -/
def sampleOrderBack : Session := { sampleOrder with files := ⟨sampleOrder.files.entries.reverse⟩ }

theorem sampleOrder_reordered : sampleOrder.Reordered sampleOrderBack :=
  ⟨⟨(List.reverse_perm _).symm, by decide +kernel⟩, rfl⟩

private theorem not_fails {bad : Failure → Bool} {r : Except Failure α} {a : α} (h : r = .ok a) : ¬ FailsWith bad r := by
  rintro ⟨e, he, -⟩
  cases h.symm.trans he

theorem sampleOrder_outcomes :
    let policy : Policy := { kind := .ecosystem .make, configParent := Location.path ["p"], number := 0 }
    let compressed := Submission.compress policy (Location.path ["p"]) (Location.path ["o.zip"])
    let found := Archive.findProject? (Location.path ["w"])
    sampleOrder.files.names ["w"] = ["b", "a"] ∧ sampleOrderBack.files.names ["w"] = ["a", "b"] ∧
    (SameOutcome sampleOrder sampleOrderBack (Exercise.files (Location.path ["p"])) ∧
      ((Exercise.files (Location.path ["p"])).perform sampleOrder).1 =
        .ok [Location.path ["p", "Makefile"], Location.path ["p", "src", "a"], Location.path ["p", "src", "b"]]) ∧
    (SameOutcome sampleOrder sampleOrderBack found ∧
      (found.perform sampleOrder).1 = .ok (some (Location.path ["w", "a"]))) ∧
    SameOutcome sampleOrder sampleOrderBack compressed ∧ (compressed.perform sampleOrder).1 = .ok () := by
  intro policy compressed found
  obtain ⟨-, -, hfiles, -, -, hcompress, hfind⟩ := reordered_outcomes sampleOrder_reordered
  have hfound : (found.perform sampleOrder).1 = .ok (some (Location.path ["w", "a"])) := by decide +kernel
  have hfound' : (found.perform sampleOrderBack).1 = .ok (some (Location.path ["w", "a"])) := by decide +kernel
  have hcompressed : (compressed.perform sampleOrder).1 = .ok () := by decide +kernel
  refine ⟨by decide +kernel, by decide +kernel, ⟨hfiles _, by decide +kernel⟩, ⟨?_, hfound⟩, ?_, hcompressed⟩
  · rcases hfind (Location.path ["w"]) with h | h | h
    · exact h
    · exact absurd h (not_fails hfound)
    · exact absurd h (not_fails hfound')
  · rcases hcompress policy (Location.path ["p"]) (Location.path ["o.zip"]) with h | h
    · exact h
    · exact absurd h.1 (not_fails hcompressed)

/-- A name of 64 characters that takes 256 bytes. -/
def longName : String := String.ofList (List.replicate 64 (Char.ofNat 0x1F600))

/-- A project file beside two links to a name that is too long. -/
def sampleLongNames : Session where
  workingDir := []
  scratch := ["tmp"]
  files := ⟨[(["q"], .directory), (["q", "src"], .directory), (["q", "src", "b"], .directory),
    (["q", "src", "b", "x.csproj"], .file [] false),
    (["q", "src", "a"], .link longName), (["q", "src", "c"], .link longName)]⟩

/-- The same, stored the other way round. -/
def sampleLongNamesBack : Session := { sampleLongNames with files := ⟨sampleLongNames.files.entries.reverse⟩ }

/-- What an operation has failed on, if it has failed on a name that is too long. -/
def failedOn? (r : Except Failure α) : Option String :=
  match r with
  | .ok _ => none
  | .error e => e.tooLong?

/-- In one order a project is found and in the other one the search fails.  The files beside the links cannot be listed,
nor archived, for the one link or for the other. -/
theorem sampleLongNames_differ : sampleLongNames.Reordered sampleLongNamesBack ∧
    let found := Archive.findProject? (Location.path ["q"])
    let listed := filesIn (Location.path ["q", "src"])
    let policy : Policy := { kind := .ecosystem .csharp, configParent := Location.path ["q", "src"], number := 0 }
    let compressed := Submission.compress policy (Location.path ["q", "src"]) (Location.path ["o.zip"])
    ((found.perform sampleLongNames).1 = .ok (some (Location.path ["q"])) ∧
      failedOn? (found.perform sampleLongNamesBack).1 = some "/q/src/c") ∧
    (failedOn? (listed.perform sampleLongNames).1 = some "/q/src/a" ∧
      failedOn? (listed.perform sampleLongNamesBack).1 = some "/q/src/c") ∧
    failedOn? (compressed.perform sampleLongNames).1 = some "/q/src/a" ∧
      failedOn? (compressed.perform sampleLongNamesBack).1 = some "/q/src/c" := by
  refine ⟨⟨⟨(List.reverse_perm _).symm, by decide +kernel⟩, rfl⟩, ?_⟩
  -- one evaluation of all runs decodes the long name only once
  decide +kernel

end Handout

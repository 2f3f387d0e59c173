import Handout.Proofs.Project.Scratch
import Handout.Proofs.Submission.Assemble

/-!
# Receiving a submission

To package a submission, the temporary directory is made and the submission is extracted into it (`receive`); then
the tests are fetched, from an archive or from the clone, and the directory of the package is made.  Each of these
puts what it makes below a name of its own in the temporary directory (`Received`, `Prepared`).
-/

namespace Handout

open Handout.Action Session

variable {s t u v : Session} {p p' : Path} {k : Location}

namespace Submission

/-! ### Receiving -/

/-- Makes the temporary directory, extracts a submission into it, and finds the project and its ecosystem. -/
def receive (request : Request) : Action (Path × Ecosystem) := do
  note .info .submissionPackaging s!"preparing submission {request.submission.toString}"
  let loc := (← get).scratch
  edit fun f => f.put loc .directory
  let dir := loc.path.child "received"
  Archive.extract request.submission dir
  let received ← Archive.findProject request.submission dir
  let e ← Ecosystem.get received
  note .info .submissionPackaging s!"submission is a {e.name} project"
  return (received, e)

/-- In the temporary directory there is only a submission with its project. -/
structure Received (s : Session) (p : Path) (u : Session) : Prop where
  within : Within s.opened u s.scratch
  project : IsDirectoryIn u.files (s.scratch ++ ["received"]) p
  rest : ∀ rel, rel ≠ [] → ¬ ["received"] <+: rel → u.files.get? (s.scratch ++ rel) = none

/-- What is put below a name in the temporary directory. -/
private def Below (s : Session) (name : String) (t : Session) : Prop :=
  Within s.opened t s.scratch ∧ ∀ rel, rel ≠ [] → ¬ [name] <+: rel → t.files.get? (s.scratch ++ rel) = none

private theorem below_put {name c : String} {rel : List String} {node : Node} (h : Below s name t)
    (hrel : [name] <+: rel ++ [c]) (hc : IsProper c) (hd : t.files.get? (s.scratch ++ rel) = some .directory)
    (hold : t.files.get? (s.scratch ++ rel ++ [c]) = some .directory → node = .directory) (hnode : node.isLink = false) :
    Below s name { t with files := t.files.put (s.scratch ++ rel ++ [c]) node } := by
  refine ⟨h.1.put (List.prefix_append _ _) hd hc hold hnode, fun other hne hother => ?_⟩
  dsimp only
  rw [Files.get?_put_of_ne (by simp), h.2 other hne hother]
  rw [List.append_assoc]
  intro he
  exact hother (List.append_cancel_left he ▸ hrel)

private theorem below_start (h : s.Ready) (name : String) (record : LogRecord) :
    Below s name { s with files := s.files.put s.scratch .directory, log := s.log ++ [record] } := by
  refine ⟨h.opened.log record, fun rel hne _ => ?_⟩
  dsimp only
  rw [Files.get?_put_of_ne h.scratch_ne_nil (by simpa using hne)]
  exact h.get?_scratch (List.prefix_append _ _)

/-- Extracting into the temporary directory changes nothing else. -/
theorem unpacks_within (s : Session) :
    Archive.Unpacks (Alone fun t => Within s.opened t s.scratch) s.scratch.path s.scratch fun _ => True :=
  .alone (fun _ ht => ⟨ht.sound, leadsTo_path ht.sound ht.directory, ht.noLink⟩)
    (fun _ _ _ ht _ hc hd _ => ht.put (List.prefix_append _ _) hd hc (fun _ => rfl) rfl)
    (fun _ _ _ _ _ ht _ hc hd hflag =>
      ht.put (List.prefix_append _ _) hd hc (fun h => absurd h hflag.ne_directory) rfl)
    fun _ record ht => ht.log record

private theorem unpacks_below (s : Session) (name : String) :
    Archive.Unpacks (Alone (Below s name)) s.scratch.path s.scratch fun rel => [name] <+: rel :=
  .alone (fun _ ht => ⟨ht.1.sound, leadsTo_path ht.1.sound ht.1.directory, ht.1.noLink⟩)
    (fun _ _ _ ht hok hc hd _ => below_put ht hok hc hd (fun _ => rfl) rfl)
    (fun _ _ _ _ _ ht hok hc hd hflag => below_put ht hok hc hd (fun h => absurd h hflag.ne_directory) rfl)
    fun _ record ht => ⟨ht.1.log record, ht.2⟩

theorem opens_below (name : String) : Opens (fun rel => [name] <+: rel) [name] := by
  intro rest first hne hfirst
  obtain ⟨c, first, rfl⟩ := List.exists_cons_of_ne_nil hne
  obtain ⟨rfl, -⟩ := List.cons_prefix_cons.1 hfirst
  exact ⟨first, rfl⟩

/-- Receiving a submission changes the temporary directory only. -/
theorem receive_ensures (h : s.Ready) (request : Request) :
    Ensures (fun t => t = s) (receive request) (fun r u => Received s r.1 u) fun _ u => Within s.opened u s.scratch := by
  have hname : ∀ c ∈ ["received"], IsName c := by
    intro c hc
    rw [List.mem_singleton.1 hc]
    exact (by decide : IsProper "received").toIsName
  have hextract := Archive.extract_ensures request.submission (unpacks_below s "received")
    (opens_below "received") hname
  have hfind : ∀ f : Files, f.get? (s.scratch ++ ["received"]) = some .directory →
      Ensures (fun t => Below s "received" t ∧ t.files = f)
        (Archive.findProject request.submission (Location.path (s.scratch ++ ["received"])))
        (fun root t => Received s root t) fun _ t => Within s.opened t s.scratch := by
    intro f hd
    refine (Archive.findProject_ensures request.submission hd (P := fun t => Below s "received" t ∧ t.files = f)
      (fun t ht => ⟨ht.1.1.sound, fun rel => by rw [ht.2], fun rel target => ?_⟩)
      (fun t record ht => ⟨⟨ht.1.1.log record, ht.1.2⟩, ht.2⟩)).mono (fun _ ht => ht) (fun root t ht => ?_)
      fun _ t ht => ht.1.1
    · rw [← ht.2, List.append_assoc]
      exact ht.1.1.noLink _ target
    · obtain ⟨⟨ht, rfl⟩, hroot⟩ := ht
      exact ⟨ht.1, hroot, ht.2⟩
  have hget : ∀ root, Ensures (Received s root) (Ecosystem.get root) (fun _ t => Received s root t)
      fun _ t => Within s.opened t s.scratch := by
    intro root
    refine (Looks.ensures (Ecosystem.looks_find? root) fun _ t ht => ht.within).bind fun found => ?_
    split
    · exact Ensures.pure fun _ ht => ht
    · exact Ensures.throw fun _ ht => ht.within
  have hrest : Ensures (Below s "received")
      (do
        Archive.extract request.submission (Location.path (s.scratch ++ ["received"]))
        let root ← Archive.findProject request.submission (Location.path (s.scratch ++ ["received"]))
        let e ← Ecosystem.get root
        note .info .submissionPackaging s!"submission is a {e.name} project"
        return (root, e) : Action (Path × Ecosystem))
      (fun r u => Received s r.1 u) fun _ u => Within s.opened u s.scratch := by
    refine (hextract.mono (fun _ ht => ht) (fun _ _ ht => ht) fun _ _ ht => ht.1).bind fun _ => ?_
    refine Ensures.bind (M := Received s) (fun t ht => hfind t.files ht.2 t ⟨ht.1, rfl⟩) fun root => ?_
    refine (hget root).bind fun e => Ensures.bind (M := fun _ => Received s root) ?_ fun _ => Ensures.pure fun _ ht => ht
    exact Ensures.note fun t record ht => ⟨ht.within.log record, ht.project, ht.rest⟩
  rintro t rfl
  have hstart := below_start h "received" ⟨.info, .submissionPackaging, s!"preparing submission {request.submission.toString}"⟩
  unfold receive
  rw [perform_bind_ok (perform_note ..), perform_bind_ok (perform_get _), perform_bind_ok (perform_edit ..)]
  exact hrest _ hstart

/-- A submission that could be received. -/
theorem received_of_perform {request : Request} {e : Ecosystem} (hs : s.Ready)
    (h : (receive request).perform s = (.ok (p, e), u)) : Received s p u := by
  have hreceived := receive_ensures hs request s rfl
  rwa [h] at hreceived

/-! ### Fetching the tests and making the directory of the package -/

/-- In two sessions, since `u` and `v`, the same tests have been put in the temporary directory, and the directory of
the package holds the same. -/
structure Prepared (s u v : Session) (package : Content) (a b : Session) : Prop where
  left : Within s.opened a s.scratch
  right : Within s.opened b s.scratch
  left_same : ∀ x, ¬ s.scratch ++ ["stub"] <+: x → ¬ s.scratch ++ ["dest"] <+: x → a.files.get? x = u.files.get? x
  right_same : ∀ x, ¬ s.scratch ++ ["stub"] <+: x → ¬ s.scratch ++ ["dest"] <+: x → b.files.get? x = v.files.get? x
  left_package : a.files.content (s.scratch ++ ["dest"]) = package
  right_package : b.files.content (s.scratch ++ ["dest"]) = package
  tests : ∀ rel, a.files.get? (s.scratch ++ "stub" :: rel) = b.files.get? (s.scratch ++ "stub" :: rel)
  names : ∀ rel, a.files.names (s.scratch ++ "stub" :: rel) = b.files.names (s.scratch ++ "stub" :: rel)

variable {a b : Session} {package : Content}

theorem Prepared.start (hu : Received s p u) (hv : Received s p' v) : Prepared s u v (fun _ => none) u v := by
  have hnone : ∀ {w q}, Received s q w → ∀ (name : String) rel, name ≠ "received" →
      w.files.get? (s.scratch ++ name :: rel) = none := by
    intro w q hw name rel hname
    refine hw.rest _ (List.cons_ne_nil _ _) fun h => ?_
    exact hname (List.cons_prefix_cons.1 h).1.symm
  have hnames : ∀ {w q}, Received s q w → ∀ rel, w.files.names (s.scratch ++ "stub" :: rel) = [] := by
    intro w q hw rel
    refine List.eq_nil_iff_forall_not_mem.2 fun name hmem => Files.mem_names.1 hmem ?_
    rw [List.append_assoc]
    exact hnone hw _ _ (by decide)
  have hpackage : ∀ {w q}, Received s q w → w.files.content (s.scratch ++ ["dest"]) = fun _ => none := by
    intro w q hw
    funext rel
    unfold Files.content
    rw [List.append_assoc]
    exact hnone hw _ _ (by decide)
  refine ⟨hu.within, hv.within, fun _ _ _ => rfl, fun _ _ _ => rfl, hpackage hu, hpackage hv, fun rel => ?_, fun rel => ?_⟩
  · rw [hnone hu _ _ (by decide), hnone hv _ _ (by decide)]
  · rw [hnames hu, hnames hv]

theorem Prepared.log (h : Prepared s u v package a b) (record : LogRecord) :
    Prepared s u v package { a with log := a.log ++ [record] } { b with log := b.log ++ [record] } :=
  ⟨h.left.log record, h.right.log record, h.left_same, h.right_same, h.left_package, h.right_package, h.tests, h.names⟩

theorem Prepared.beside (h : Prepared s u v package a b) : Beside s.opened s.opened s.scratch a b := ⟨h.left, h.right⟩

/-- Storing a node among the tests. -/
private theorem Prepared.put {rel : List String} {c : String} {node : Node} (h : Prepared s u v package a b)
    (hrel : ["stub"] <+: rel ++ [c]) (hc : IsProper c) (hd : a.files.get? (s.scratch ++ rel) = some .directory)
    (hold : a.files.get? (s.scratch ++ rel ++ [c]) = some .directory → node = .directory) (hnode : node.isLink = false) :
    Prepared s u v package { a with files := a.files.put (s.scratch ++ rel ++ [c]) node }
      { b with files := b.files.put (s.scratch ++ rel ++ [c]) node } := by
  obtain ⟨r, hr⟩ := hrel
  have hloc : s.scratch ++ rel ++ [c] = s.scratch ++ "stub" :: r := by
    rw [List.append_assoc, ← hr]
    rfl
  have htests := h.tests r
  rw [← hloc] at htests
  have hd' : b.files.get? (s.scratch ++ rel) = some .directory := by
    cases rel with
    | nil =>
      rw [List.append_nil]
      exact h.right.directory
    | cons c' rel =>
      obtain ⟨rfl, -⟩ := List.cons.inj hr
      rw [← h.tests, hd]
  have hother : ∀ (f : Files) x, ¬ s.scratch ++ ["stub"] <+: x → (f.put (s.scratch ++ rel ++ [c]) node).get? x = f.get? x := by
    intro f x hx
    refine Files.get?_put_of_ne (by simp) ?_
    rintro rfl
    exact hx (hloc ▸ ⟨r, by simp⟩)
  have hapart : ∀ more, ¬ s.scratch ++ ["stub"] <+: s.scratch ++ ["dest"] ++ more := by
    intro more hx
    rw [List.append_assoc] at hx
    have := (List.prefix_append_right_inj s.scratch).1 hx
    exact absurd (List.cons_prefix_cons.1 this).1 (by decide)
  refine ⟨h.left.put (List.prefix_append _ _) hd hc hold hnode,
    h.right.put (List.prefix_append _ _) hd' hc (fun hx => hold (htests ▸ hx)) hnode, fun x hx hx' => ?_, fun x hx hx' => ?_,
    ?_, ?_, fun more => ?_, fun more => ?_⟩
  · exact (hother _ x hx).trans (h.left_same x hx hx')
  · exact (hother _ x hx).trans (h.right_same x hx hx')
  · exact (funext fun more => hother _ _ (hapart more)).trans h.left_package
  · exact (funext fun more => hother _ _ (hapart more)).trans h.right_package
  · dsimp only
    rw [Files.get?_put (by simp), Files.get?_put (by simp), h.tests]
  · dsimp only
    by_cases hdir : s.scratch ++ rel = s.scratch ++ "stub" :: more
    · rw [← hdir, Files.names_put, Files.names_put, htests, hdir, h.names]
    · have hne : (s.scratch ++ rel ++ [c]).dropLast ≠ s.scratch ++ "stub" :: more := by
        rwa [List.dropLast_concat]
      rw [Files.names_put_of_ne hne, Files.names_put_of_ne hne, h.names]

private theorem unpacks_prepared (s u v : Session) (package : Content) :
    Archive.Unpacks (Prepared s u v package) s.scratch.path s.scratch fun rel => ["stub"] <+: rel := by
  refine { left := ?_, right := ?_, same := ?_, make := ?_, write := ?_, log := ?_ }
  · exact fun a b h names => ⟨h.left.sound, leadsTo_path h.left.sound h.left.directory, fun first target _ _ =>
      h.left.noLink first target⟩
  · exact fun a b h names => ⟨h.right.sound, leadsTo_path h.right.sound h.right.directory, fun first target _ _ =>
      h.right.noLink first target⟩
  · rintro a b h rel (rfl | ⟨r, rfl⟩)
    · rw [List.append_nil, h.left.directory, h.right.directory]
    · exact h.tests r
  · exact fun a b rel c h hok hc hd _ => h.put hok hc hd (fun _ => rfl) rfl
  · exact fun a b rel c data flag h hok hc hd hflag => h.put hok hc hd (fun hx => absurd hx hflag.ne_directory) rfl
  · exact fun a b record h => h.log record

theorem Prepared.locked (h : Prepared s u v package a b) : a.locked = b.locked := by
  rw [h.left.locked, h.right.locked]

/-- What is stored at and above a location in the tests is the same. -/
private theorem Prepared.same (h : Prepared s u v package a b) {x : Location} {rel : List String}
    (hx : x <+: s.scratch ++ "stub" :: rel) : a.files.get? x = b.files.get? x := by
  rcases List.prefix_or_prefix_of_prefix hx (List.prefix_append s.scratch _) with hway | ⟨more, rfl⟩
  · rw [h.left.sound.files.way h.left.directory hway, h.right.sound.files.way h.right.directory hway]
  · cases more with
    | nil => rw [List.append_nil, h.left.directory, h.right.directory]
    | cons c more =>
      obtain ⟨rfl, -⟩ := List.cons_prefix_cons.1 ((List.prefix_append_right_inj s.scratch).1 hx)
      exact h.tests more

/-- The tests show the same in both sessions. -/
theorem Prepared.sameView (h : Prepared s u v package a b)
    (hlocked : ∀ rel, Location.path (s.scratch ++ rel) ∉ s.locked)
    (hd : IsDirectoryIn a.files (s.scratch ++ ["stub"]) p) : SameView a b p := by
  obtain ⟨rel, rfl, hd⟩ := hd
  rw [List.append_assoc] at hd ⊢
  refine ((listable_scratch h.left hlocked).below hd).sameView (fun x (hx : x <+: s.scratch ++ "stub" :: rel) => h.same hx) ?_ (fun more => ?_)
    h.locked
  · funext more
    unfold Files.content
    rw [List.append_assoc]
    exact h.tests (rel ++ more)
  · rw [List.append_assoc]
    exact h.names (rel ++ more)

/-- The project that holds the tests. -/
def HoldsTests (s : Session) (request : Request) (t : Session) (tests : Path) : Prop :=
  match request.stub with
  | none => tests = request.clone
  | some _ => IsDirectoryIn t.files (s.scratch ++ ["stub"]) tests

/-- The same tests are fetched in both sessions. -/
theorem testsOf_relates (hs : s.Ready) (hlocked : ∀ rel, Location.path (s.scratch ++ rel) ∉ s.locked) {request : Request}
    (hstub : ∀ archive, request.stub = some archive → Avoids s archive s.scratch) :
    Relates (Prepared s u v package) (testsOf request s.scratch.path) (testsOf request s.scratch.path)
      (fun tests a b => Prepared s u v package a b ∧ HoldsTests s request a tests)
      (Same fun _ => Beside s.opened s.opened s.scratch) := by
  unfold testsOf HoldsTests
  cases hrequest : request.stub with
  | none => exact Relates.pure fun a b h => ⟨h, rfl⟩
  | some archive =>
    have hname : ∀ c ∈ ["stub"], IsName c := by
      intro c hc
      rw [List.mem_singleton.1 hc]
      exact (by decide : IsProper "stub").toIsName
    have hread : ∀ a b, Prepared s u v package a b → a.content? archive.written = b.content? archive.written := by
      intro a b h
      have havoids := (hstub archive hrequest).within hs hs.opened
      rw [h.left.content? havoids, h.right.content? havoids]
    have hextract := Archive.extract_relates archive (unpacks_prepared s u v package) (opens_below "stub") hname hread
    refine (hextract.mono (fun _ _ h => h) (fun _ _ _ h => h) fun _ _ _ _ h => ⟨h.1, h.2.beside⟩).bind fun _ => ?_
    intro a b hab
    have hfind := Archive.findProject_relates (f := a.files)
      (R := fun c d => Prepared s u v package c d ∧ ∀ rel, c.files.get? (s.scratch ++ ["stub"] ++ rel) =
        a.files.get? (s.scratch ++ ["stub"] ++ rel)) archive hab.1.left.sound.files hab.2
      (fun c d h => ⟨h.1.left.sound, h.2, fun rel target => ?_⟩) (fun c d h => ⟨h.1.right.sound, fun rel => ?_, fun rel target => ?_⟩)
      (fun c d h => ?_) (fun c d record h => ⟨h.1.log record, h.2⟩)
    · refine (hfind a b ⟨hab.1, fun _ => rfl⟩).mono (fun root c d h => ⟨h.1.1, ?_⟩) fun _ _ _ _ h => ⟨h.1, h.2.1.beside⟩
      obtain ⟨rel, hroot, hd⟩ := h.2
      exact ⟨rel, hroot, by rw [h.1.2, hd]⟩
    · rw [List.append_assoc]
      exact hab.1.left.noLink _ target
    · rw [← h.2, List.append_assoc]
      exact (h.1.tests rel).symm
    · rw [List.append_assoc]
      exact hab.1.left.noLink _ target
    · refine h.1.sameView hlocked ⟨[], by rw [List.append_nil], ?_⟩
      have htop := h.2 []
      rw [List.append_nil] at htop ⊢
      rw [htop, hab.2]

/-- The session in which the directory of the package has been made. -/
def withPackage (scratch : Location) (t : Session) : Session :=
  { t with files := t.files.put (scratch ++ ["dest"]) .directory }

/-- Making the directory of the package, where there is nothing yet. -/
theorem perform_makePackage (ht : Within s.opened t s.scratch)
    (hnone : t.files.content (s.scratch ++ ["dest"]) = fun _ => none) :
    (during .createDirectory (Location.path (s.scratch ++ ["dest"]))
      (makeDirectory (Location.path (s.scratch ++ ["dest"])).written)).perform t = (.ok (), withPackage s.scratch t) := by
  have hfree := congrFun hnone []
  unfold Files.content at hfree
  rw [List.append_nil] at hfree
  have hspot : Spot t s.scratch "dest" := ⟨ht.directory, by decide⟩
  rw [perform_during, perform_makeDirectory_missing (hspot.reaches ht.sound (by rw [hfree]; exact nofun)) rfl hfree]
  rfl

/-- The directory of the package is made. -/
theorem makePackage_relates {request : Request} {tests : Path} :
    Relates (fun a b => Prepared s u v (fun _ => none) a b ∧ HoldsTests s request a tests)
      (during .createDirectory (Location.path (s.scratch ++ ["dest"])) (makeDirectory (Location.path (s.scratch ++ ["dest"])).written))
      (during .createDirectory (Location.path (s.scratch ++ ["dest"])) (makeDirectory (Location.path (s.scratch ++ ["dest"])).written))
      (fun _ a b => Prepared s u v (fun names => if names = [] then some .directory else none) a b ∧
        HoldsTests s request a tests) (Same fun _ => Beside s.opened s.opened s.scratch) := by
  rintro a b ⟨h, htests⟩
  have hproper : IsProper "dest" := by decide
  have hother : ∀ (f : Files) x, ¬ s.scratch ++ ["dest"] <+: x →
      (f.put (s.scratch ++ ["dest"]) .directory).get? x = f.get? x := by
    intro f x hx
    refine Files.get?_put_of_ne (by simp) ?_
    rintro rfl
    exact hx (List.prefix_refl _)
  have hapart : ∀ rel, ¬ s.scratch ++ ["dest"] <+: s.scratch ++ "stub" :: rel := by
    intro rel hx
    exact absurd (List.cons_prefix_cons.1 ((List.prefix_append_right_inj s.scratch).1 hx)).1 (by decide)
  have hbare : ∀ {t : Session}, t.files.content (s.scratch ++ ["dest"]) = (fun _ => none) →
      (t.files.put (s.scratch ++ ["dest"]) .directory).content (s.scratch ++ ["dest"]) =
        fun names => if names = [] then some .directory else none := by
    intro t hnone
    funext names
    have hold := congrFun hnone names
    unfold Files.content at hold ⊢
    rw [Files.get?_put (by simp), hold]
    simp only [List.append_right_eq_self]
  have hnames : ∀ (f : Files) rel, (f.put (s.scratch ++ ["dest"]) .directory).names (s.scratch ++ "stub" :: rel) =
      f.names (s.scratch ++ "stub" :: rel) := by
    intro f rel
    refine Files.names_put_of_ne ?_
    rw [List.dropLast_concat]
    simp
  rw [perform_makePackage h.left h.left_package, perform_makePackage h.right h.right_package]
  unfold withPackage
  refine ⟨rfl, ⟨?_, ?_, fun x hx hx' => ?_, fun x hx hx' => ?_, hbare h.left_package, hbare h.right_package, fun rel => ?_,
    fun rel => ?_⟩, ?_⟩
  · exact h.left.put (List.prefix_refl _) h.left.directory hproper (fun _ => rfl) rfl
  · exact h.right.put (List.prefix_refl _) h.right.directory hproper (fun _ => rfl) rfl
  · exact (hother _ x hx').trans (h.left_same x hx hx')
  · exact (hother _ x hx').trans (h.right_same x hx hx')
  · exact (hother _ _ (hapart rel)).trans ((h.tests rel).trans (hother _ _ (hapart rel)).symm)
  · exact (hnames _ rel).trans ((h.names rel).trans (hnames _ rel).symm)
  · unfold HoldsTests at htests ⊢
    cases hrequest : request.stub with
    | none =>
      rw [hrequest] at htests
      exact htests
    | some archive =>
      rw [hrequest] at htests
      obtain ⟨rel, hroot, hd⟩ := htests
      refine ⟨rel, hroot, ?_⟩
      dsimp only
      rw [hother _ _ (by rw [List.append_assoc]; exact hapart rel), hd]

/-- Tests that could be fetched, after which the directory of the package can be made. -/
theorem prepared_of_perform {request : Request} (hs : s.Ready)
    (hlocked : ∀ rel, Location.path (s.scratch ++ rel) ∉ s.locked)
    (hstub : ∀ archive, request.stub = some archive → Avoids s archive s.scratch) (hu : Received s p u)
    (h : (testsOf request s.scratch.path).perform u = (.ok p', t)) :
    (Prepared s u u (fun _ => none) t t ∧ HoldsTests s request t p') ∧
      Prepared s u u (fun names => if names = [] then some .directory else none) (withPackage s.scratch t)
        (withPackage s.scratch t) ∧ HoldsTests s request (withPackage s.scratch t) p' := by
  have hfetched := testsOf_relates hs hlocked hstub u u (.start hu hu)
  rw [h] at hfetched
  have hmade := makePackage_relates t t hfetched.2
  rw [perform_makePackage hfetched.2.1.left hfetched.2.1.left_package] at hmade
  exact ⟨hfetched.2, hmade.2⟩

end Submission

end Handout

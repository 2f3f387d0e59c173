import Handout.Proofs.Archive.Create
import Handout.Proofs.Submission.Receive

/-!
# Packaging a submission
-/

namespace Handout.Submission

open Handout.Action Session

variable {s t u v a b : Session} {p p' tests : Path} {e : Ecosystem} {request : Request}

/-- Fetches the tests and fills the directory of the package. -/
def furnish (request : Request) (scratch : Path) (r : Path × Ecosystem) : Action Unit := do
  let tests ← testsOf request scratch
  let package := scratch.child "dest"
  during .createDirectory package (makeDirectory package.written)
  fill request.params request.clone r.2 r.1 tests package

/-- The format of the package. -/
def Request.format (request : Request) : Archive.Format := if request.asZip then .zip else .tar

/-- Furnishes the package and creates the archive. -/
def deliver (request : Request) (scratch : Path) (r : Path × Ecosystem) : Action Unit := do
  furnish request scratch r
  Archive.create request.format (scratch.child "dest") request.output request.top none

/-- A submission is received, and then the package is delivered. -/
theorem perform_pack (request : Request) (s : Session) :
    (pack request).perform s =
      let o := (receive request >>= deliver request s.scratch.path).perform s
      match o.1 with
      | .ok _ => (.ok (), { o.2 with
          files := o.2.files.eraseTree s.scratch
          log := o.2.log ++ [⟨.info, .submissionPackaging, s!"wrote submission package {request.output.toString}"⟩] })
      | .error e => (.error e, { o.2 with files := o.2.files.eraseTree s.scratch }) := by
  have hbody : ∀ s' : Session, ((fun scratch => do
      let package ← assemble request scratch
      let format := if request.asZip then .zip else .tar
      Archive.create format package request.output request.top none : Path → Action Unit) s.scratch.path).perform s' =
      ((do
        let dir := s.scratch.path.child "received"
        Archive.extract request.submission dir
        let received ← Archive.findProject request.submission dir
        let e ← Ecosystem.get received
        note .info .submissionPackaging s!"submission is a {e.name} project"
        deliver request s.scratch.path (received, e) : Action Unit)).perform s' := by
    intro s'
    unfold assemble deliver furnish fill Request.format
    simp only [bind_assoc, pure_bind]
  unfold pack receive
  simp only [bind_assoc, pure_bind]
  rw [perform_bind_ok (perform_note ..), perform_bind_ok (perform_note ..), perform_bind_ok (perform_get _),
    perform_bind_ok (perform_edit ..), perform_bind, perform_withScratch]
  dsimp only
  dsimp only at hbody
  rw [hbody]
  generalize Action.perform _ _ = o
  obtain ⟨r, t⟩ := o
  cases r <;> rfl

/-- When a submission has been received, the outcome of packaging is that of the delivery, and nothing is left of the
temporary directory. -/
theorem pack_of_receive {r : Path × Ecosystem} (hne : s.scratch ≠ []) (h : (receive request).perform s = (.ok r, u)) :
    let o := (pack request).perform s
    let o' := (deliver request s.scratch.path r).perform u
    o.1 = o'.1 ∧ ∀ x, o.2.files.get? x = if s.scratch <+: x then none else o'.2.files.get? x := by
  rw [perform_pack, perform_bind_ok h]
  generalize (deliver request s.scratch.path r).perform u = o
  obtain ⟨result, t⟩ := o
  cases result <;> exact ⟨rfl, fun x => Files.get?_eraseTree hne⟩

/-- The temporary directory is new, nothing in it is locked, and what is named by a request lies elsewhere. -/
structure Request.Apart (request : Request) (s : Session) : Prop where
  ready : s.Ready
  unlocked : ∀ rel, Location.path (s.scratch ++ rel) ∉ s.locked
  clone : Avoids s request.clone s.scratch
  stub : ∀ archive, request.stub = some archive → Avoids s archive s.scratch
  output : Avoids s request.output s.scratch
  draft : Avoids s (request.output.addSuffix ".tmp") s.scratch

/-- A request that names nothing outside the working directory is apart from the temporary directory. -/
theorem Request.apart_of_unlinked (h : s.Unlinked)
    (hpaths : ∀ p ∈ request.clone :: request.output :: request.output.addSuffix ".tmp" :: request.stub.toList,
      p.isAbsolute = false ∧ ∀ c ∈ p.parts, IsPlain c) : request.Apart s := by
  have havoids : ∀ p ∈ request.clone :: request.output :: request.output.addSuffix ".tmp" :: request.stub.toList,
      Avoids s p s.scratch := fun p hp => h.avoids (hpaths p hp).1 (hpaths p hp).2
  refine ⟨h.ready, fun rel hmem => ?_, havoids _ (by simp), fun archive hstub => havoids _ (by simp [hstub]),
    havoids _ (by simp), havoids _ (by simp)⟩
  rw [h.locked] at hmem
  cases hmem

/-! ### Parts of received projects -/

/-- What is at some names below the root of a received project. -/
theorem Received.project_path (h : Received s p u) :
    ∃ rel, p = Location.path (s.scratch ++ "received" :: rel) ∧
      u.files.get? (s.scratch ++ "received" :: rel) = some .directory := by
  obtain ⟨rel, rfl, hd⟩ := h.project
  rw [List.append_assoc] at hd ⊢
  exact ⟨rel, rfl, hd⟩

/-- Whether the project has an entry. -/
theorem Received.exists?_entry (h : Received s p u) (hlocked : ∀ rel, Location.path (s.scratch ++ rel) ∉ s.locked)
    {name : String} (hname : IsProper name) :
    u.exists? (p.append [name]) = .ok (u.files.get? (p.parts ++ [name])).isSome := by
  obtain ⟨rel, rfl, hd⟩ := h.project_path
  exact ((listable_scratch h.within hlocked).below hd).exists?_entry hname

/-- Since `u`, a received submission has stayed as it was. -/
structure Holding (s u a : Session) : Prop where
  before : u.Listable s.scratch
  after : a.Listable s.scratch
  same : ∀ rel, a.files.get? (s.scratch ++ "received" :: rel) = u.files.get? (s.scratch ++ "received" :: rel)

private theorem not_prefix_received {name : String} (hname : name ≠ "received") (rel : List String) :
    ¬ s.scratch ++ [name] <+: s.scratch ++ "received" :: rel := fun hx =>
  hname (List.cons_prefix_cons.1 ((List.prefix_append_right_inj s.scratch).1 hx)).1

theorem Prepared.holding_left {package : Content} (h : Prepared s u v package a b) (hu : Received s p u)
    (hlocked : ∀ rel, Location.path (s.scratch ++ rel) ∉ s.locked) : Holding s u a :=
  ⟨listable_scratch hu.within hlocked, listable_scratch h.left hlocked, fun rel =>
    h.left_same _ (not_prefix_received (by decide) rel) (not_prefix_received (by decide) rel)⟩

theorem Prepared.holding_right {package : Content} (h : Prepared s u v package a b) (hv : Received s p' v)
    (hlocked : ∀ rel, Location.path (s.scratch ++ rel) ∉ s.locked) : Holding s v b :=
  ⟨listable_scratch hv.within hlocked, listable_scratch h.right hlocked, fun rel =>
    h.right_same _ (not_prefix_received (by decide) rel) (not_prefix_received (by decide) rel)⟩

variable {rel : List String}

theorem Holding.avoids (h : Holding s u a) (hp : ∀ c ∈ "received" :: rel, IsPlain c) :
    Avoids a (Location.path (s.scratch ++ "received" :: rel)) (s.scratch ++ ["dest"]) := by
  refine h.after.avoids hp (not_prefix_received (by decide) rel) fun hx => ?_
  exact absurd (List.cons_prefix_cons.1 ((List.prefix_append_right_inj s.scratch).1 hx)).1 (by decide)

/-- What is offered was received. -/
theorem Holding.offers (h : Holding s u a) (hp : ∀ c ∈ "received" :: rel, IsPlain c) :
    a.offers (Location.path (s.scratch ++ "received" :: rel)) =
      fun names => (u.files.content (s.scratch ++ "received" :: rel) names).map Offer.ofNode := by
  rw [h.after.offers hp]
  funext names
  unfold Files.content
  rw [List.append_assoc, List.cons_append, h.same]

/-- Whether something is there is asked as before. -/
theorem Holding.exists? (h : Holding s u a) (hp : ∀ c ∈ "received" :: rel, IsPlain c) :
    a.exists? (Location.path (s.scratch ++ "received" :: rel)) = u.exists? (Location.path (s.scratch ++ "received" :: rel)) := by
  have hfind := h.after.find_congr (t := u) hp (fun x hx => ?_) true
  · unfold Session.exists? Session.look
    rw [hfind]
  · rcases List.prefix_or_prefix_of_prefix hx (List.prefix_append s.scratch _) with hway | ⟨more, rfl⟩
    · rw [h.before.sound.files.way h.before.directory hway, h.after.sound.files.way h.after.directory hway]
    · cases more with
      | nil => rw [List.append_nil, h.before.directory, h.after.directory]
      | cons c more =>
        obtain ⟨rfl, -⟩ := List.cons_prefix_cons.1 ((List.prefix_append_right_inj s.scratch).1 hx)
        exact h.same more

/-- Parts of two received projects with the same contents can be packaged alike. -/
theorem Holding.pair (ha : Holding s u a) (hb : Holding s v b) (hu : Received s p u) (hv : Received s p' v)
    {names : List String} (hp : ∀ c ∈ names, IsPlain c)
    (hsame : u.files.content (p.parts ++ names) = v.files.content (p'.parts ++ names))
    (hthere : Answers (u.exists? (p.append names)) (v.exists? (p'.append names))) :
    Pair a b (s.scratch ++ ["dest"]) (p.append names) (p'.append names) := by
  have hproject : ∀ {w q}, w.Listable s.scratch → Received s q w → ∃ rel, q = Location.path (s.scratch ++ "received" :: rel) ∧
      w.files.get? (s.scratch ++ "received" :: rel) = some .directory ∧ (∀ c ∈ "received" :: (rel ++ names), IsPlain c) ∧
      q.append names = Location.path (s.scratch ++ "received" :: (rel ++ names)) ∧ q.hasZero = false := by
    intro w q hw hq
    obtain ⟨rel, rfl, hd⟩ := hq.project_path
    have hn : w.files.get? (s.scratch ++ "received" :: rel) ≠ none := by
      rw [hd]
      exact Option.some_ne_none _
    refine ⟨rel, rfl, hd, fun c hc => ?_, ?_, hasZero_path hw.sound hn⟩
    · rcases List.mem_append.1 (show c ∈ ("received" :: rel) ++ names from hc) with hc | hc
      · exact (hw.sound.files.proper_of_mem hn hc).plain
      · exact hp c hc
    · show Location.path (s.scratch ++ "received" :: rel ++ names) = _
      rw [List.append_assoc]
      rfl
  obtain ⟨rel, rfl, hd, hplain, happend, hz⟩ := hproject ha.before hu
  obtain ⟨rel', rfl, -, hplain', happend', hz'⟩ := hproject hb.before hv
  have hoffers := ha.offers hplain
  have hparts : ∀ r, (Location.path (s.scratch ++ "received" :: r)).parts ++ names =
      s.scratch ++ "received" :: (r ++ names) := fun r => List.append_assoc ..
  rw [hparts, hparts] at hsame
  have hzero : (Location.path (s.scratch ++ "received" :: (rel ++ names))).hasZero =
      (Location.path (s.scratch ++ "received" :: (rel' ++ names))).hasZero := by
    rw [← happend, ← happend', Path.hasZero_append, Path.hasZero_append, hz, hz']
  rw [happend, happend'] at hthere ⊢
  refine ⟨ha.avoids hplain, hb.avoids hplain', ?_, ?_, hzero, ?_⟩
  · rw [hoffers, hb.offers hplain', hsame]
  · by_cases hn : names = []
    · left
      rw [hoffers, hn, List.append_nil]
      simp only [Files.content, List.append_nil, hd]
      rfl
    · right
      rw [← happend, ← happend', Path.name_append _ hn, Path.name_append _ hn]
  · rwa [ha.exists? hplain, hb.exists? hplain']

/-! ### Furnishing the package -/

/-- What is packaged of two received projects is the same. -/
structure SameParts (s u v : Session) (clone : Path) (e : Ecosystem) (p p' : Path) : Prop where
  environment : ∀ name ∈ environmentNames, u.files.content (p.parts ++ [name]) = v.files.content (p'.parts ++ [name])
  student : ∀ c, ((Config.load clone).perform s).1 = .ok c → ∀ q ∈ (e.layoutOf c).studentPaths,
    u.files.content (p.parts ++ q.parts) = v.files.content (p'.parts ++ q.parts)
  /-- It can be asked in both or in neither whether a part is there. -/
  there : ∀ c, ((Config.load clone).perform s).1 = .ok c → ∀ q ∈ (e.layoutOf c).studentPaths,
    Answers (u.exists? (p.join q)) (v.exists? (p'.join q))
  /-- A project that is packaged as a whole under its own name has the same name. -/
  root : ∀ c, ((Config.load clone).perform s).1 = .ok c → e.style = .generic →
    Path.here ∈ (e.layoutOf c).studentPaths → p.name = p'.name

theorem SameParts.refl (s u : Session) (clone : Path) (e : Ecosystem) (p : Path) : SameParts s u u clone e p p :=
  ⟨fun _ _ => rfl, fun _ _ _ _ => rfl, fun _ _ _ _ => Answers.refl _, fun _ _ _ _ => rfl⟩

/-- A clone that is packaged as a whole under its own name has a name that tells a place. -/
def Request.NamesClone (request : Request) (s : Session) (e : Ecosystem) : Prop :=
  ∀ c, ((Config.load request.clone).perform s).1 = .ok c → e.style = .generic →
    Path.here ∈ (e.layoutOf c).exercisePaths → request.stub = none → TellsPlace request.clone.name

/-- The default parts of a project are inside it. -/
theorem inside_defaults (e : Ecosystem) :
    ∀ q ∈ e.defaultStudentPaths ++ e.defaultExercisePaths, Config.IsInside q := by
  have h : ∀ q ∈ e.defaultStudentPaths ++ e.defaultExercisePaths, q.isAbsolute = false ∧ ∀ c ∈ q.parts, IsProper c := by
    cases e <;> decide +kernel
  exact fun q hq => ⟨(h q hq).1, fun c hc => ((h q hq).2 c hc).toIsName⟩

theorem inside_layout {c : Config} (hc : c.Inside) (e : Ecosystem) :
    ∀ q ∈ (e.layoutOf c).studentPaths ++ (e.layoutOf c).exercisePaths, Config.IsInside q :=
  Ecosystem.forall_mem_layoutOf (inside_defaults e)
    (List.forall_mem_append.2 ⟨hc .extraStudentFiles, hc .extraExerciseFiles⟩)

/-- The name of a part is its own, unless it is the whole project. -/
private theorem name_join {q : Path} (h : Config.IsInside q) (base : Path) :
    IsName (base.join q).name ∧ (∀ other : Path, (base.join q).name = (other.join q).name) ∨ q = Path.here := by
  obtain ⟨hrelative, hnames⟩ := h
  by_cases hq : q.parts = []
  · right
    obtain ⟨anchor, parts⟩ := q
    cases anchor with
    | relative =>
      cases hq
      rfl
    | _ => cases hrelative
  · left
    rw [join_of_inside ⟨hrelative, hnames⟩, Path.name_append _ hq]
    refine ⟨hnames _ (List.getLast_mem hq), fun other => ?_⟩
    rw [join_of_inside ⟨hrelative, hnames⟩, Path.name_append _ hq]

/-- The clone shows the same while the package is put together. -/
private theorem shared_clone {package : Content} (hrequest : request.Apart s) (h : Prepared s u v package a b) :
    Shared a b (s.scratch ++ ["dest"]) request.clone :=
  ⟨(hrequest.clone.within hrequest.ready h.left).mono (List.prefix_append _ _),
    (hrequest.clone.within hrequest.ready h.right).mono (List.prefix_append _ _),
    (hrequest.clone.sameView hrequest.ready h.left).symm.trans (hrequest.clone.sameView hrequest.ready h.right)⟩

/-- The tests show the same while the package is put together. -/
private theorem shared_tests {package : Content} (hrequest : request.Apart s) (h : Prepared s u v package a b)
    (htests : HoldsTests s request a tests) : Shared a b (s.scratch ++ ["dest"]) tests := by
  unfold HoldsTests at htests
  cases hstub : request.stub with
  | none =>
    rw [hstub] at htests
    rw [htests]
    exact shared_clone hrequest h
  | some archive =>
    rw [hstub] at htests
    have hview := h.sameView hrequest.unlocked htests
    obtain ⟨rel, rfl, hd⟩ := htests
    rw [List.append_assoc] at hd hview ⊢
    have hplain : ∀ {w : Session}, w.Listable s.scratch → w.files.get? (s.scratch ++ (["stub"] ++ rel)) = some .directory →
        Avoids w (Location.path (s.scratch ++ (["stub"] ++ rel))) (s.scratch ++ ["dest"]) := by
      intro w hw hd
      have hn : w.files.get? (s.scratch ++ (["stub"] ++ rel)) ≠ none := by
        rw [hd]
        exact Option.some_ne_none _
      refine hw.avoids (fun c hc => (hw.sound.files.proper_of_mem hn hc).plain) (fun hx => ?_) fun hx => ?_
      · exact absurd (List.cons_prefix_cons.1 ((List.prefix_append_right_inj s.scratch).1 hx)).1 (by decide)
      · exact absurd (List.cons_prefix_cons.1 ((List.prefix_append_right_inj s.scratch).1 hx)).1 (by decide)
    exact ⟨hplain (listable_scratch h.left hrequest.unlocked) hd,
      hplain (listable_scratch h.right hrequest.unlocked) (by rw [← hd]; exact (h.tests rel).symm), hview⟩

/-- What is stored has a name that tells a place. -/
private theorem tells_of_exists {x : Location} (hs : s.Sound) (hn : s.files.get? x ≠ none) : TellsPlace x.path.name := by
  by_cases hne : x = []
  · rw [hne]
    exact .inl rfl
  · have hname : x.path.name = x.getLast hne := Path.name_append (Location.path []) hne
    rw [hname]
    exact .inr (proper_of_exists hs hn (List.getLast_mem hne)).toIsName

/-- The name of the project that holds the tests. -/
private theorem tells_tests (ha : Within s.opened a s.scratch) (htests : HoldsTests s request a tests)
    (hclone : request.stub = none → TellsPlace request.clone.name) : TellsPlace tests.name := by
  unfold HoldsTests at htests
  cases hstub : request.stub with
  | none =>
    rw [hstub] at htests
    rw [htests]
    exact hclone hstub
  | some archive =>
    rw [hstub] at htests
    obtain ⟨rel, rfl, hd⟩ := htests
    exact tells_of_exists ha.sound (by rw [hd]; exact Option.some_ne_none _)

/-- Two received projects of which the same is packaged fill the package alike. -/
theorem fillable {package : Content} (hrequest : request.Apart s) (h : Prepared s u v package a b) (hu : Received s p u)
    (hv : Received s p' v) (htests : HoldsTests s request a tests) (hsame : SameParts s u v request.clone e p p')
    (hclone : request.NamesClone s e) : Fillable a b (s.scratch ++ ["dest"]) request.clone e p p' tests := by
  have ha := h.holding_left hu hrequest.unlocked
  have hb := h.holding_right hv hrequest.unlocked
  refine ⟨shared_clone hrequest h, fun name hname => ?_, fun c hc => ?_⟩
  · have hproper : IsProper name := by
      revert name
      decide
    have hplain : ∀ c ∈ [name], IsPlain c := by simpa using hproper.plain
    refine ha.pair hb hu hv hplain (hsame.environment name hname) ?_
    rw [hu.exists?_entry hrequest.unlocked hproper, hv.exists?_entry hrequest.unlocked hproper]
    have hentry := congrFun (hsame.environment name hname) []
    unfold Files.content at hentry
    rw [List.append_nil, List.append_nil] at hentry
    rw [hentry]
    exact Answers.refl _
  · have hload : ((Config.load request.clone).perform s).1 = .ok c := by
      rw [(agrees_load (hrequest.clone.sameView hrequest.ready h.left)).same]
      exact hc
    have hparts := inside_layout (Config.inside_of_load hc) e
    refine ⟨shared_clone hrequest h, shared_tests hrequest h htests, hparts, fun q hq => ?_, fun hstyle q hq => ?_,
      fun hstyle q hq => ?_⟩
    · have hq' := hparts q (List.mem_append_left _ hq)
      have hthere := hsame.there c hload q hq
      rw [join_of_inside hq', join_of_inside hq'] at hthere ⊢
      exact ha.pair hb hu hv (plain_of_isName hq'.2) (hsame.student c hload q hq) hthere
    · rcases name_join (hparts q (List.mem_append_left _ hq)) p with ⟨hname, hothers⟩ | rfl
      · exact ⟨hothers p', .inr hname⟩
      · have hhere : ∀ base : Path, base.join Path.here = base := Path.append_nil
        rw [hhere, hhere]
        refine ⟨hsame.root c hload hstyle hq, ?_⟩
        obtain ⟨rel, rfl, hd⟩ := hu.project
        exact tells_of_exists hu.within.sound (by rw [hd]; exact Option.some_ne_none _)
    · rcases name_join (hparts q (List.mem_append_right _ hq)) tests with ⟨hname, -⟩ | rfl
      · exact .inr hname
      · have hhere : tests.join Path.here = tests := Path.append_nil tests
        rw [hhere]
        exact tells_tests h.left htests (hclone c hload hstyle hq)

/-- A new package is filled alike from two received projects of which the same is packaged. -/
theorem fill_of_prepared (hrequest : request.Apart s) (hu : Received s p u) (hv : Received s p' v)
    (hsame : SameParts s u v request.clone e p p') (hclone : request.NamesClone s e)
    (h : Prepared s u v (fun names => if names = [] then some .directory else none) a b)
    (htests : HoldsTests s request a tests) :
    Meets (fun _ c d => ∃ config, ((Config.load request.clone).perform s).1 = .ok config ∧
        Merging a b (s.scratch ++ ["dest"]) (packageLayers a request.params request.clone e p tests config) c d)
      (BothFail s.opened s.opened s.scratch)
      ((fill request.params request.clone e p tests (Location.path (s.scratch ++ ["dest"]))).perform a)
      ((fill request.params request.clone e p' tests (Location.path (s.scratch ++ ["dest"]))).perform b) := by
  have hpackage : ∀ {w : Session}, w.files.content (s.scratch ++ ["dest"]) = (fun names => if names = [] then some .directory
      else none) → w.files.get? (s.scratch ++ ["dest"]) = some .directory := by
    intro w hw
    have hdir := congrFun hw []
    unfold Files.content at hdir
    rwa [List.append_nil] at hdir
  have hwithin : ∀ {w : Session}, Within s.opened w s.scratch → w.files.get? (s.scratch ++ ["dest"]) = some .directory →
      Within w w (s.scratch ++ ["dest"]) := fun hw hdir => .refl hw.sound hdir fun rel target => by
    rw [List.append_assoc]
    exact hw.noLink _ target
  have hstart : Merging a b (s.scratch ++ ["dest"]) [] a b :=
    ⟨⟨hwithin h.left (hpackage h.left_package), hwithin h.right (hpackage h.right_package)⟩,
      h.left_package.trans h.right_package.symm, h.left_package ▸ .bare⟩
  have hfill := fill_relates h.left.sound h.right.sound (fillable hrequest h hu hv htests hsame hclone) request.params
  refine (hfill a b hstart).mono (fun _ c d hcd => ?_) fun _ _ c d hcd => ?_
  · obtain ⟨config, hconfig, hmerging⟩ := hcd
    refine ⟨config, ?_, hmerging⟩
    rw [(agrees_load (hrequest.clone.sameView hrequest.ready h.left)).same]
    exact hconfig
  · exact ⟨hcd.1, h.left.widen (List.prefix_append _ _) hcd.2.left, h.right.widen (List.prefix_append _ _) hcd.2.right⟩

/-- A package was furnished in both sessions, beside which only tests were fetched, with the same content. -/
def Furnished (s c d : Session) : Prop :=
  ∃ a b ls, Within s.opened a s.scratch ∧ Within s.opened b s.scratch ∧ Merging a b (s.scratch ++ ["dest"]) ls c d

/-- From two received projects of which the same is packaged, the package is furnished alike. -/
theorem furnish_relates (hrequest : request.Apart s) (hu : Received s p u) (hv : Received s p' v)
    (hsame : SameParts s u v request.clone e p p') (hclone : request.NamesClone s e) :
    Relates (Prepared s u v fun _ => none) (furnish request s.scratch.path (p, e)) (furnish request s.scratch.path (p', e))
      (fun _ => Furnished s) (BothFail s.opened s.opened s.scratch) := by
  unfold furnish
  refine ((testsOf_relates hrequest.ready hrequest.unlocked hrequest.stub).mono (fun _ _ h => h) (fun _ _ _ h => h)
    fun e f c d h => ⟨h.1 ▸ Failure.Alike.refl e, h.2⟩).bind fun tests => ?_
  refine (makePackage_relates.mono (fun _ _ h => h) (fun _ _ _ h => h)
    fun e f c d h => ⟨h.1 ▸ Failure.Alike.refl e, h.2⟩).bind fun _ => ?_
  rintro a b ⟨h, htests⟩
  refine (fill_of_prepared hrequest hu hv hsame hclone h htests).mono (fun _ c d hcd => ?_) fun _ _ _ _ hcd => hcd
  obtain ⟨config, -, hmerging⟩ := hcd
  exact ⟨a, b, _, h.left, h.right, hmerging⟩

/-! ### Packaging -/

/-- What is outside the temporary directory is as it was. -/
theorem outside_opened (hs : s.Ready) (ht : Within s.opened t s.scratch) {x : Location} (hx : ¬ s.scratch <+: x) :
    t.files.get? x = s.files.get? x := by
  rw [ht.outside x hx]
  refine Files.get?_put_of_ne hs.scratch_ne_nil ?_
  rintro rfl
  exact hx (List.prefix_refl _)

/-- A furnished package can be archived. -/
theorem Furnished.sameDirectory {c d : Session} (hrequest : request.Apart s) (h : Furnished s c d) :
    Archive.SameDirectory s s.scratch (s.scratch ++ ["dest"]) c d := by
  obtain ⟨a, b, ls, hleft, hright, hmerging⟩ := h
  have hleft := hleft.widen (List.prefix_append _ _) hmerging.left
  have hright := hright.widen (List.prefix_append _ _) hmerging.right
  have hlistable := fun {w : Session} (hw : Within s.opened w s.scratch) (hd : w.files.get? (s.scratch ++ ["dest"]) =
    some .directory) => (listable_scratch hw hrequest.unlocked).below hd
  refine ⟨⟨?_, ?_, fun x hx => .inl (outside_opened hrequest.ready hleft hx), fun x hx => ?_⟩, List.prefix_append _ _,
    hlistable hleft hmerging.left.directory, hlistable hright hmerging.right.directory, hmerging.same⟩
  · rw [hleft.only]
    rfl
  · rw [hright.only]
    rfl
  · rw [outside_opened hrequest.ready hleft hx, outside_opened hrequest.ready hright hx]

/-- From two received projects of which the same is packaged, the same archive is delivered. -/
theorem deliver_relates (hrequest : request.Apart s) (hu : Received s p u) (hv : Received s p' v)
    (hsame : SameParts s u v request.clone e p p') (hclone : request.NamesClone s e) :
    Relates (Prepared s u v fun _ => none) (deliver request s.scratch.path (p, e)) (deliver request s.scratch.path (p', e))
      (fun _ => Archive.SameOutside s.scratch) fun e f c d => e.Alike f ∧ Archive.SameOutside s.scratch c d := by
  refine Relates.bind (M := fun _ => Furnished s) ?_ fun _ => ?_
  · refine (furnish_relates hrequest hu hv hsame hclone).mono (fun _ _ h => h) (fun _ _ _ h => h)
      fun _ _ c d h => ⟨h.1, fun x hx => ?_⟩
    rw [outside_opened hrequest.ready h.2.left hx, outside_opened hrequest.ready h.2.right hx]
  · exact (Archive.create_relates hrequest.draft hrequest.output).mono (fun _ _ h => h.sameDirectory hrequest)
      (fun _ _ _ h => h) fun e _ _ _ h => ⟨h.1 ▸ Failure.Alike.refl e, h.2⟩

/-! ### The package of one run -/

/-- What a package was made of. -/
structure Packed (s : Session) (request : Request) where
  /-- The project of the student. -/
  project : Path
  ecosystem : Ecosystem
  /-- The session in which the submission has been received. -/
  received : Session
  /-- The project that holds the tests. -/
  tests : Path
  /-- The session in which the tests have been fetched. -/
  fetched : Session
  /-- The configuration of the clone. -/
  config : Config
  /-- The session in which the package has been filled. -/
  furnished : Session
  receive_eq : (receive request).perform s = (.ok (project, ecosystem), received)
  fetch_eq : (testsOf request s.scratch.path).perform received = (.ok tests, fetched)
  load_eq : ((Config.load request.clone).perform s).1 = .ok config
  furnish_eq : (furnish request s.scratch.path (project, ecosystem)).perform received = (.ok (), furnished)
  stacked : Stacked (packageLayers (withPackage s.scratch fetched) request.params request.clone ecosystem project tests
    config) (furnished.files.content (s.scratch ++ ["dest"]))

/-- What is in the package. -/
def Packed.content (parts : Packed s request) : Content := parts.furnished.files.content (s.scratch ++ ["dest"])

/-- A run determines what the package was made of. -/
theorem Packed.eq_of_receive (parts : Packed s request) (h : ((receive request).perform s).1 = .ok (p, e)) :
    let received := ((receive request).perform s).2
    parts.project = p ∧ parts.ecosystem = e ∧ parts.received = received ∧
      parts.furnished = ((furnish request s.scratch.path (p, e)).perform received).2 := by
  obtain ⟨project, ecosystem, received, tests, fetched, config, furnished, hreceive, -, -, hfurnish, -⟩ := parts
  rw [hreceive] at h ⊢
  obtain ⟨rfl, rfl⟩ := Prod.mk.inj (Except.ok.inj h)
  exact ⟨rfl, rfl, rfl, (congrArg Prod.snd hfurnish).symm⟩

/-- Without a stub, the tests are those of the clone. -/
theorem Packed.tests_eq (parts : Packed s request) (h : request.stub = none) :
    parts.tests = request.clone ∧ parts.fetched = parts.received := by
  have hfetch := parts.fetch_eq
  unfold testsOf at hfetch
  rw [h] at hfetch
  obtain ⟨htests, hfetched⟩ := Prod.mk.inj hfetch
  exact ⟨(Except.ok.inj htests).symm, hfetched.symm⟩

/-- The archive is written to no link, and by its name this file is not in the temporary directory. -/
structure Request.Writable (request : Request) (s : Session) : Prop where
  noLink : ∀ loc target, s.find false (request.output.addSuffix ".tmp") ≠ .ok ⟨loc, some (.link target)⟩
  elsewhere : ¬ s.scratch <+: (s.workingDir.path.join (request.output.addSuffix ".tmp")).normal.parts

theorem Request.writable_of_unlinked (h : s.Unlinked) (hrelative : (request.output.addSuffix ".tmp").isAbsolute = false)
    (hplain : ∀ c ∈ (request.output.addSuffix ".tmp").parts, IsPlain c) : request.Writable s := by
  constructor
  · intro loc target hfind
    exact h.ne_link loc target (find_isSound h.ready.sound hfind).1.symm
  · have hdir : ∀ c ∈ s.workingDir, c ≠ ".." := fun c hc =>
      (proper_of_exists h.ready.sound (by rw [h.workingDir]; exact Option.some_ne_none _) hc).plain.2
    rw [Path.join_eq_append _ hrelative, Path.normal_of_plain fun c hc => ?_]
    · intro hout
      exact (List.prefix_or_prefix_of_prefix hout (List.prefix_append _ _)).elim h.outside h.apart
    · exact (List.mem_append.1 hc).elim (hdir c) fun hc => (hplain c hc).2

/-- An archive of some content is in the place of the output. -/
def Request.Written (request : Request) (s t : Session) (content : Content) : Prop :=
  ∃ place data executable, s.find false request.output = .ok place ∧
    t.files.get? place.location = some (.file data executable) ∧ Archive.Holds request.format request.top content data

/-- When a submission could be packaged, an archive of the package has been written. -/
theorem pack_written (hrequest : request.Apart s) (hwritable : request.Writable s)
    (hclone : ∀ e, request.NamesClone s e) (h : (pack request).perform s = (.ok (), t)) :
    ∃ parts : Packed s request, request.Written s t parts.content := by
  rcases hreceive : (receive request).perform s with ⟨r, u⟩
  cases r with
  | error e =>
    rw [perform_pack, perform_bind_error hreceive] at h
    cases h
  | ok r =>
    obtain ⟨p, e⟩ := r
    have hu := received_of_perform hrequest.ready hreceive
    obtain ⟨hresult, hfiles⟩ := pack_of_receive hrequest.ready.scratch_ne_nil hreceive
    rw [h] at hresult hfiles
    rcases hdeliver : (deliver request s.scratch.path (p, e)).perform u with ⟨r, t'⟩
    rw [hdeliver] at hresult hfiles
    dsimp only at hresult
    subst hresult
    obtain ⟨_, c, hfurnish, hcreate⟩ := ok_of_perform_bind hdeliver
    obtain ⟨tests, w, hfetch, hrest⟩ := ok_of_perform_bind hfurnish
    obtain ⟨_, a, hmake, hfill⟩ := ok_of_perform_bind hrest
    rw [show s.scratch.path.child "dest" = Location.path (s.scratch ++ ["dest"]) from rfl] at hmake hfill hcreate
    -- one session beside itself
    obtain ⟨hfetched, hmade⟩ := prepared_of_perform hrequest.ready hrequest.unlocked hrequest.stub hu hfetch
    rw [perform_makePackage hfetched.1.left hfetched.1.left_package] at hmake
    obtain rfl := (Prod.mk.inj hmake).2
    have hfilled := fill_of_prepared hrequest hu hu (.refl ..) (hclone e) hmade.1 hmade.2
    rw [hfill] at hfilled
    obtain ⟨-, config, hload, hmerging⟩ := hfilled
    have hfurnished : Furnished s c c := ⟨_, _, _, hmade.1.left, hmade.1.right, hmerging⟩
    have hsame := hfurnished.sameDirectory hrequest
    have htwins : Archive.Twins s s.scratch c s := ⟨hsame.left, rfl, hsame.shape, fun x hx =>
      (outside_opened hrequest.ready (hmade.1.left.widen (List.prefix_append _ _) hmerging.left) hx).symm⟩
    obtain ⟨place, data, executable, hplace, hoff, hwritten, hholds⟩ :=
      Archive.create_written hsame hrequest.draft hrequest.output
        (fun loc target => by rw [htwins.find hrequest.draft]; exact hwritable.noLink loc target)
        (fun _ rel hrel => Archive.areSameName_of_below (List.prefix_append _ _ |>.trans (List.prefix_append _ _))
          (fun x hx => (proper_of_exists hsame.left_listable.sound hrel hx).plain.2)
          (by rw [hsame.left]; exact hwritable.elsewhere)) hcreate
    refine ⟨⟨p, e, u, tests, w, config, c, hreceive, hfetch, hload, hfurnish, hmerging.stacked⟩, place, data, executable, ?_, ?_,
      hholds⟩
    · rw [← htwins.find hrequest.output, hplace]
    · rw [hfiles, if_neg hoff, hwritten]

end Handout.Submission

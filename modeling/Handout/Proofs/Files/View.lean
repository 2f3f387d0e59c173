import Handout.Project.Ecosystem
import Handout.Proofs.Files.Layers
import Handout.Proofs.Files.Source
import Handout.Proofs.Project.Configuration
import Handout.Proofs.Project.Ecosystem

/-!
# Paths that show the same in two sessions

`Session.SameView s t p` says that from the path `p` on, names lead to the same in both sessions and directories have
the same entries.  Then everything that is asked about `p` and names below it has the same answer: what it offers,
which files are in it, its configuration, and whether it is recognized as a project.  A path that avoids a place shows
the same while that place is being filled (`Within.sameView`).
-/

namespace Handout

namespace Session

variable {before s t : Session} {p : Path} {d loc : Location} {names : List String} {c : String}

/-- From a path on, two sessions show the same. -/
structure SameView (s t : Session) (p : Path) : Prop where
  find : ∀ names, (∀ c ∈ names, IsPlain c) → ∀ follow,
    s.find follow (p.append names) = t.find follow (p.append names)
  names : ∀ names, (∀ c ∈ names, IsPlain c) → ∀ loc, s.LeadsTo (p.append names) loc →
    s.files.names loc = t.files.names loc
  locked : s.locked = t.locked

theorem Within.sameView (h : Within before s d) (ha : Avoids before p d) : SameView before s p where
  find _ hp follow := (h.find ha hp follow).symm
  names names hp loc hl := by
    refine (h.names loc ?_).symm
    exact ha.apart before.files (.refl _ _) names hp true _ (leadsTo_iff_find.1 hl)
  locked := h.locked.symm

theorem SameView.symm (h : SameView s t p) : SameView t s p where
  find names hp follow := (h.find names hp follow).symm
  names names hp loc hl := by
    refine (h.names names hp loc ?_).symm
    rw [leadsTo_iff_find, h.find names hp]
    exact leadsTo_iff_find.1 hl
  locked := h.locked.symm

theorem SameView.trans {u : Session} (h : SameView s t p) (h' : SameView t u p) : SameView s u p where
  find names hp follow := (h.find names hp follow).trans (h'.find names hp follow)
  names names hp loc hl := by
    refine (h.names names hp loc hl).trans (h'.names names hp loc ?_)
    rw [leadsTo_iff_find, ← h.find names hp]
    exact leadsTo_iff_find.1 hl
  locked := h.locked.trans h'.locked

theorem SameView.append (h : SameView s t p) (hp : ∀ c ∈ names, IsPlain c) : SameView s t (p.append names) where
  find rest hr follow := by
    rw [Path.append_append]
    refine h.find _ (fun c hc => ?_) follow
    rcases List.mem_append.1 hc with hc | hc
    · exact hp c hc
    · exact hr c hc
  names rest hr loc hl := by
    rw [Path.append_append] at hl
    refine h.names _ (fun c hc => ?_) loc hl
    rcases List.mem_append.1 hc with hc | hc
    · exact hp c hc
    · exact hr c hc
  locked := h.locked

theorem SameView.child (h : SameView s t p) (hc : IsPlain c) : SameView s t (p.child c) :=
  h.append (show ∀ x ∈ [c], IsPlain x by simpa using hc)

theorem SameView.find_self (h : SameView s t p) (follow : Bool) : s.find follow p = t.find follow p := by
  have hfind := h.find [] (fun c hc => absurd hc List.not_mem_nil) follow
  rwa [Path.append_nil] at hfind

theorem SameView.node? (h : SameView s t p) (follow : Bool) : s.node? follow p = t.node? follow p := by
  unfold Session.node?
  rw [h.find_self]

theorem SameView.look (h : SameView s t p) (follow : Bool) : s.look follow p = t.look follow p := by
  unfold Session.look
  rw [h.find_self]

theorem SameView.exists? (h : SameView s t p) : s.exists? p = t.exists? p := by
  unfold Session.exists?
  rw [h.look]

theorem SameView.isDirectory? (h : SameView s t p) : s.isDirectory? p = t.isDirectory? p := by
  unfold Session.isDirectory?
  rw [h.look]

theorem SameView.isFile? (h : SameView s t p) : s.isFile? p = t.isFile? p := by
  unfold Session.isFile?
  rw [h.look, h.locked]

theorem SameView.content? (h : SameView s t p) : s.content? p.written = t.content? p.written := by
  unfold Session.content?
  rw [show p.written.path = p from rfl, h.find_self]

theorem SameView.names? (h : SameView s t p) : s.names? p.written = t.names? p.written := by
  unfold Session.names?
  rw [show p.written.path = p from rfl, h.find_self, h.locked]
  cases hf : t.find true p with
  | error code => rfl
  | ok place =>
    obtain ⟨loc, node⟩ := place
    cases node with
    | none => rfl
    | some node =>
      cases node with
      | directory =>
        simp only
        rw [h.names [] (fun c hc => absurd hc List.not_mem_nil) loc]
        rw [Path.append_nil, leadsTo_iff_find, h.find_self]
        exact hf
      | _ => rfl

theorem SameView.offer? (h : SameView s t p) : s.offer? p = t.offer? p := by
  unfold Session.offer?
  rw [h.find_self, h.locked, h.node?]

theorem SameView.offers (h : SameView s t p) : s.offers p = t.offers p := by
  funext names
  unfold Session.offers
  split
  · rename_i hp
    exact (h.append hp).offer?
  · rfl

/-- The entries of a directory have proper names. -/
theorem proper_of_names? (hs : s.Sound) {w : WrittenPath} {found : List String} (h : s.names? w = .ok found)
    (hc : c ∈ found) : IsProper c := by
  obtain ⟨loc, -, rfl⟩ := names?_eq_ok h
  exact hs.files.proper (Files.mem_names.1 hc)

/-- Where a path leads to nothing or to a file, nothing is offered below. -/
theorem offers_closed (s : Session) (p : Path) : Offers.Closed (s.offers p) := by
  intro first rest hrest hn
  have hplain : ∀ c ∈ first ++ rest, IsPlain c := by
    by_contra hplain
    unfold Session.offers at hn
    rw [if_neg hplain] at hn
    exact hn rfl
  have hfirst : ∀ c ∈ first, IsPlain c := fun c hc => hplain c (List.mem_append_left _ hc)
  unfold Session.offers at hn ⊢
  rw [if_pos hplain, ← Path.append_append] at hn
  rw [if_pos hfirst]
  have hz : ((p.append first).append rest).hasZero = false := by
    by_contra hz
    unfold Session.offer? at hn
    rw [if_pos (by simpa using hz)] at hn
    exact hn rfl
  -- what is found below a directory is reached through it
  have hleads : ∃ d, s.LeadsTo (p.append first) d := by
    unfold Session.offer? Session.node? at hn
    rw [hz] at hn
    simp only [Bool.false_eq_true, if_false] at hn
    split at hn
    · rename_i hf
      exact leads_of_find_append hf (.inl hrest)
    · rename_i hf
      exact leads_of_find_append hf (.inl hrest)
    · split at hn
      · rename_i hsome
        cases hf : s.find false ((p.append first).append rest) with
        | ok place => exact leads_of_find_append hf (.inl hrest)
        | error code =>
          rw [hf] at hsome
          cases hsome
      · exact absurd rfl hn
  obtain ⟨d, hl⟩ := hleads
  rw [Path.hasZero_append, Bool.or_eq_false_iff] at hz
  rw [offer?_of_leads hl hz.1]
  split
  · exact .inr rfl
  · exact .inl rfl

/-- The names by which something is found are proper. -/
theorem proper_of_node? {follow : Bool} (h : (s.node? follow (p.append names)).isSome) (hn : ∀ c ∈ names, IsName c) :
    ∀ c ∈ names, IsProper c := by
  intro c hc
  unfold Session.node? at h
  split at h
  · cases h
  rename_i hz
  have hz : (p.append names).hasZero = false := by simpa using hz
  refine ⟨hn c hc, ?_, Path.not_mem_of_hasZero hz (by simp [hc])⟩
  by_contra hlong
  obtain ⟨first, rest, rfl⟩ := List.append_of_mem hc
  cases hf : s.find follow (p.append (first ++ c :: rest)) with
  | error code =>
    rw [hf] at h
    cases h
  | ok place =>
    rw [← Path.append_append] at hf
    obtain ⟨e, n, hk, hl⟩ := leads_of_find_append hf (.inl (List.cons_ne_nil _ _))
    have hwalk : s.files.walk follow (maxLinks - n) e (c :: rest) = .ok place :=
      (Files.walk_of_leads hl hk (.inl (List.cons_ne_nil _ _))).symm.trans hf
    rw [Files.walk_long (hn c hc).plain (by omega)] at hwalk
    cases hwalk

/-- The last name of a path that is found is proper. -/
theorem proper_name_of_node? {follow : Bool} (h : (s.node? follow p).isSome) (hn : IsName p.name) : IsProper p.name := by
  rcases List.eq_nil_or_concat' p.parts with hp | ⟨init, c, hp⟩
  · have hname : p.name = "" := by simp [Path.name, hp]
    rw [hname] at hn
    exact absurd hn.plain.1 (by decide)
  · have hname : p.name = c := by simp [Path.name, hp]
    have happend : p = (⟨p.anchor, init⟩ : Path).append [c] := by
      unfold Path.append
      rw [← hp]
    rw [hname] at hn ⊢
    rw [happend] at h
    exact proper_of_node? h (by simpa using hn) c (List.mem_singleton_self c)

/-- What is offered as a file is a file. -/
theorem offers_eq_file {data : Bytes} {executable : Bool} (hp : ∀ c ∈ names, IsPlain c) :
    s.offers p names = some (.file data executable) ↔ s.node? true (p.append names) = some (.file data executable) := by
  have hnode : ∀ place, (p.append names).hasZero = false → s.find true (p.append names) = .ok place →
      s.node? true (p.append names) = place.node := by
    intro place hz hf
    unfold Session.node?
    rw [hz, if_neg Bool.false_ne_true, hf]
  unfold offers offer?
  rw [if_pos hp]
  split
  · rename_i hz
    unfold Session.node?
    rw [if_pos hz]
    exact ⟨nofun, nofun⟩
  · rename_i hz
    have hz : (p.append names).hasZero = false := by simpa using hz
    split
    · rename_i hf
      rw [hnode _ hz hf]
      refine ⟨fun h => ?_, nofun⟩
      split at h <;> cases h
    · rename_i hf
      rw [hnode _ hz hf]
      simp
    · rename_i hdir hfile
      constructor
      · intro h
        split at h <;> cases h
      · intro h
        cases hf : s.find true (p.append names) with
        | ok place =>
          rw [hnode place hz hf] at h
          obtain ⟨loc, node⟩ := place
          dsimp only at h
          rw [h] at hf
          exact absurd hf (hfile loc data executable)
        | error code =>
          unfold Session.node? at h
          rw [hz, if_neg Bool.false_ne_true, hf] at h
          cases h

/-- What is found by names is found through a directory. -/
theorem node?_of_append {follow : Bool} (h : (s.node? follow (p.append names)).isSome) (hn : names ≠ []) :
    s.node? true p = some .directory := by
  unfold Session.node? at h ⊢
  split at h
  · cases h
  rename_i hz
  have hz : p.hasZero = false := by
    rw [Path.hasZero_append, Bool.or_eq_true, not_or] at hz
    simpa using hz.1
  rw [hz, if_neg Bool.false_ne_true]
  cases hf : s.find follow (p.append names) with
  | error code =>
    rw [hf] at h
    cases h
  | ok place =>
    obtain ⟨d, hl⟩ := leads_of_find_append hf (.inl hn)
    rw [leadsTo_iff_find.1 hl]

theorem exists?_eq_ok {b : Bool} (h : s.exists? p = .ok b) : b = (s.node? true p).isSome := by
  unfold Session.exists? Session.look at h
  unfold Session.node?
  split at h
  · rename_i hz
    cases h
    rw [if_pos hz]
  · rename_i hz
    rw [if_neg hz]
    cases hf : s.find true p with
    | ok place =>
      rw [hf] at h
      cases h
      rfl
    | error code =>
      rw [hf] at h
      cases code <;> cases h <;> rfl

end Session

namespace Action

open Session

variable {s t : Session} {p : Path}

/-- The entries of a directory that pass a test. -/
theorem entriesWhere_eq_ok {test : Path → Action Bool} (hlooks : ∀ q, Looks (test q)) {found : List Path}
    (h : ((entriesWhere p test).perform s).1 = .ok found) :
    ∃ names, s.names? p.written = .ok names ∧
      found = (sortNames (names.filter fun c => ((test (p.child c)).perform s).1 = .ok true)).map p.child := by
  unfold entriesWhere Action.names at h
  cases hnames : s.names? p.written with
  | error e =>
    rw [perform_bind_error (by rw [perform_query, hnames])] at h
    cases h
  | ok names =>
    rw [perform_bind_ok (by rw [perform_query, hnames]), perform_bind] at h
    rcases hkept : (names.filterM fun c => test (p.child c)).perform s with ⟨r, t⟩
    rw [hkept] at h
    cases r with
    | error e => cases h
    | ok kept =>
      cases h
      exact ⟨names, rfl, by rw [filter_of_filterM (fun c => hlooks (p.child c)) (congrArg Prod.fst hkept)]⟩

/-- The regular files in a directory. -/
theorem mem_filesIn {files : List Path} (h : ((filesIn p).perform s).1 = .ok files) :
    ∃ names, s.names? p.written = .ok names ∧
      ∀ q, q ∈ files ↔ ∃ c ∈ names, s.isFile? (p.child c) = .ok true ∧ q = p.child c := by
  obtain ⟨names, hnames, rfl⟩ := entriesWhere_eq_ok looks_isFile h
  refine ⟨names, hnames, fun q => ?_⟩
  rw [List.mem_map]
  constructor
  · rintro ⟨c, hc, rfl⟩
    obtain ⟨hc, hfile⟩ := List.mem_filter.1 ((sortBy_perm _ _).mem_iff.1 hc)
    exact ⟨c, hc, of_decide_eq_true hfile, rfl⟩
  · rintro ⟨c, hc, hfile, rfl⟩
    exact ⟨c, (sortBy_perm _ _).mem_iff.2 (List.mem_filter.2 ⟨hc, decide_eq_true hfile⟩), rfl⟩

/-- An entry of a directory is listed as a file if it is one. -/
theorem child_mem_filesIn {files : List Path} {c : String} (hs : s.Sound) (h : ((filesIn p).perform s).1 = .ok files)
    (hc : IsPlain c) : p.child c ∈ files ↔ ∃ data executable, s.node? true (p.child c) = some (.file data executable) := by
  obtain ⟨names, hnames, hmem⟩ := mem_filesIn h
  have hlocked : s.locked.contains p = false := by
    by_contra hlocked
    unfold Session.names? at hnames
    rw [show p.written.path = p from rfl, if_pos (by simpa using hlocked)] at hnames
    cases hnames
  have hparent : (p.child c).parent = p := by simp [Path.parent, Path.child]
  have hfile : s.isFile? (p.child c) = .ok true ↔ ∃ data executable, s.node? true (p.child c) = some (.file data executable) := by
    unfold isFile? look Session.node?
    rw [hparent, hlocked, if_neg Bool.false_ne_true]
    split
    · simp [Except.map, isFileNode]
    · rcases s.find true (p.child c) with code | ⟨loc, node⟩
      · cases code <;> simp [Except.map, isFileNode]
      · rcases node with _ | _ | ⟨data, executable⟩ | _ <;> simp [Except.map, isFileNode]
  rw [hmem, ← hfile]
  constructor
  · rintro ⟨c', -, hfile, he⟩
    rwa [he]
  · intro hf
    refine ⟨c, ?_, hf, rfl⟩
    -- what is found below a directory is one of its entries
    obtain ⟨loc, hl, rfl⟩ := names?_eq_ok hnames
    obtain ⟨data, executable, hnode⟩ := hfile.1 hf
    have hoffer : s.offer? (p.child c) = some (.file data executable) := by
      have hoffers := (offers_eq_file (p := p.child c) (fun x hx => absurd hx List.not_mem_nil)).2
        (by rw [Path.append_nil]; exact hnode)
      rwa [offers_nil] at hoffers
    have hz : p.hasZero = false := by
      by_contra hz
      unfold Session.names? at hnames
      rw [show p.written.path = p from rfl, hlocked, if_neg Bool.false_ne_true, if_pos (by simpa using hz)] at hnames
      cases hnames
    refine Files.mem_names.2 fun hnone => ?_
    have hleads : s.LeadsTo p loc := leadsTo_iff_find.2 hl
    rw [(offer?_child_eq_none hs hleads hz hc).2 hnone] at hoffer
    cases hoffer

/-- The entries of a directory that pass a test are the same, if the test of entries sees the same. -/
private theorem agrees_entriesWhere {test : Path → Action Bool} (h : SameView s t p) (hs : s.Sound)
    (htest : ∀ c, IsProper c → Agrees s t (test (p.child c))) : Agrees s t (entriesWhere p test) := by
  refine Agrees.bind (Agrees.query h.names?) fun found hfound => ?_
  exact Agrees.bind (Agrees.filterM fun c hc => htest c (proper_of_names? hs hfound hc)) fun _ _ => Agrees.pure _

theorem agrees_filesIn (h : SameView s t p) (hs : s.Sound) : Agrees s t (filesIn p) :=
  agrees_entriesWhere h hs fun _ hc => Agrees.query (h.child hc.plain).isFile?

theorem agrees_directoriesIn (h : SameView s t p) (hs : s.Sound) : Agrees s t (directoriesIn p) := by
  refine agrees_entriesWhere h hs fun c hc => ?_
  have hchild := h.child hc.plain
  refine Agrees.bind (Agrees.query hchild.isDirectory?) fun b _ => ?_
  cases b with
  | false => exact Agrees.pure _
  | true =>
    refine Agrees.bind (Agrees.query ?_) fun _ _ => Agrees.pure _
    unfold Session.isLink?
    rw [hchild.look]

theorem agrees_load (h : SameView s t p) : Agrees s t (Config.load p) := by
  have hfile := h.child (c := Config.fileName) (by decide)
  exact Config.load_agrees hfile.isFile? fun _ => hfile.content?

end Action

namespace Ecosystem

open Handout.Action Session

variable {s t : Session} {p : Path}

private theorem agrees_anyOf {α : Type} {test : α → Action Bool} {l : List α} (h : ∀ a ∈ l, Agrees s t (test a)) :
    Agrees s t (anyOf test l) := by
  induction l with
  | nil => exact Agrees.pure _
  | cons a l ih =>
    refine (h a (List.mem_cons_self ..)).bind fun b _ => ?_
    cases b with
    | true => exact Agrees.pure _
    | false => exact ih fun x hx => h x (List.mem_cons_of_mem _ hx)

private theorem agrees_visibleNames (h : SameView s t p) : Agrees s t (visibleNames p) := by
  refine (Agrees.query h.names?).tryCatch fun e => ?_
  split
  · exact Agrees.pure _
  · exact Agrees.throw _

private theorem proper_of_visibleNames (hs : s.Sound) {found : List String}
    (h : ((visibleNames p).perform s).1 = .ok found) {c : String} (hc : c ∈ found) : IsProper c := by
  unfold visibleNames names at h
  rw [perform_tryCatch, perform_query] at h
  cases hnames : s.names? p.written with
  | ok all =>
    rw [hnames] at h
    cases h
    exact proper_of_names? hs hnames hc
  | error e =>
    rw [hnames] at h
    dsimp only at h
    split at h
    · cases h
      cases hc
    · cases h

private theorem agrees_holdsProjectFile (h : SameView s t p) (hs : s.Sound) : Agrees s t (holdsProjectFile p) := by
  refine (agrees_visibleNames h).bind fun found hfound => ?_
  split
  · exact Agrees.pure _
  · refine agrees_anyOf fun c hc => ?_
    have hchild := h.child (proper_of_visibleNames hs hfound hc).plain
    refine Agrees.bind (Agrees.query hchild.isDirectory?) fun b _ => ?_
    cases b with
    | true => exact (agrees_visibleNames hchild).bind fun _ _ => Agrees.pure _
    | false => exact Agrees.pure _

/-- The marks of ecosystems are relative paths of names. -/
private theorem marks_plain (e : Ecosystem) : ∀ mark ∈ e.marks, mark.isAbsolute = false ∧ ∀ c ∈ mark.parts, IsPlain c := by
  cases e <;> decide +kernel

theorem agrees_recognizes (h : SameView s t p) (hs : s.Sound) (e : Ecosystem) : Agrees s t (e.recognizes p) := by
  have hmarks : Agrees s t (anyOf (fun mark => isFile (p.join mark)) e.marks) := by
    refine agrees_anyOf fun mark hmark => Agrees.query ?_
    obtain ⟨hrelative, hplain⟩ := marks_plain e mark hmark
    rw [Path.join_eq_append p hrelative]
    exact (h.append hplain).isFile?
  cases e with
  | csharp =>
    have hsrc := h.child (c := "src") (by decide)
    refine Agrees.bind (Agrees.query hsrc.isDirectory?) fun b _ => ?_
    cases b with
    | true => exact agrees_holdsProjectFile hsrc hs
    | false => exact Agrees.pure _
  | _ => exact hmarks

theorem agrees_find? (h : SameView s t p) (hs : s.Sound) : Agrees s t (find? p) := by
  unfold find?
  generalize all = es
  induction es with
  | nil => exact Agrees.pure _
  | cons e es ih =>
    refine (agrees_recognizes h hs e).bind fun b _ => ?_
    cases b with
    | true => exact Agrees.pure _
    | false => exact ih

theorem agrees_isProjectRoot (h : SameView s t p) (hs : s.Sound) : Agrees s t (isProjectRoot p) := by
  refine Agrees.bind (Agrees.query h.isDirectory?) fun b _ => ?_
  cases b with
  | true => exact (agrees_find? h hs).bind fun _ _ => Agrees.pure _
  | false => exact Agrees.pure _

end Ecosystem

end Handout

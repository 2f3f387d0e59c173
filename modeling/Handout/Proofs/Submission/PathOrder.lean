import Handout.Proofs.Files.Enumeration
import Handout.Proofs.Project.Policy
import Handout.Proofs.Submission.Membership

/-!
# One order for all lists of paths

The paths that are archived by default come from a traversal, and the ones that a student submits are sorted when they
have been put together.  Both come in the order of paths: what is put together is a part of what the traversal lists,
and as paths in order are known by their members, it stands there in the same order (`enumeration_sorted`).

A traversal of a whole tree has a result if nothing obstructs it.  Then a selection of what it lists has a result as
well, unless the policy fails to classify a file (`Selects`).
-/

namespace Handout

open Handout.Action Session

variable {s t : Session} {p q : Path} {loc : Location} {policy : Policy} {paths : List Path}

theorem Path.isIncreasing_append {rels : List (List String)} (h : rels.Pairwise (· < ·)) (p : Path) :
    Path.IsIncreasing (rels.map p.append) := by
  refine List.pairwise_map.2 (h.imp fun {a b} hab => ⟨Path.le_iff.2 ?_, fun he => ?_⟩)
  · rw [Path.components_append_lt_iff]
    exact List.lt_asymm hab
  · obtain rfl : a = b := List.append_cancel_left (congrArg Path.parts he)
    exact List.lt_irrefl a hab

namespace Submission

/-- A policy fails to classify a file below a project where the same is seen. -/
def FailsToClassify (s : Session) (policy : Policy) (p : Path) (e : Failure) : Prop :=
  ∃ rel t, s.isFile? (p.append rel) = .ok true ∧ SameSight s t ∧
    ((policy.isStudentFile (p.append rel) p none).perform t).1 = .error e

/-- Paths have been selected in order among given ones, or the policy has failed to classify a file. -/
def Selects (s : Session) (policy : Policy) (p : Path) (given : List Path) (result : Except Failure (List Path)) :
    Prop :=
  (∃ paths, result = .ok paths ∧ Path.IsIncreasing paths ∧ paths.Sublist given) ∨
    ∃ e, result = .error e ∧ FailsToClassify s policy p e

/-! ### The student's paths -/

/-- Why paths cannot be selected: something obstructs, or the policy fails. -/
private def Unselectable (s : Session) (policy : Policy) (p : Path) (loc : Location) (e : Failure) : Prop :=
  ¬ s.Unobstructed p loc ∨ FailsToClassify s policy p e

/-- Whether an entry of a directory is a file of the student. -/
private theorem keeps_ensures (hp : s.Finds p loc) (policy : Policy) {rel : List String} {name : String}
    (hn : s.files.get? (loc ++ (rel ++ [name])) ≠ none) :
    Ensures (SameSight s)
      (do
        if ← Action.isFile (p.append (rel ++ [name])) then policy.isStudentFile (p.append (rel ++ [name])) p none
        else return false)
      (fun b t => SameSight s t ∧ (b = true → s.isFile? (p.append (rel ++ [name])) = .ok true))
      fun e _ => Unselectable s policy p loc e := by
  have hchild : p.append (rel ++ [name]) = (p.append rel).child name := (Path.append_append ..).symm
  have hdir : s.files.get? (loc ++ rel) = some .directory := by
    rw [← List.append_assoc] at hn
    exact hp.sound.files.parent hn
  have hfile : Ensures (SameSight s) (Action.isFile (p.append (rel ++ [name])))
      (fun b t => SameSight s t ∧ s.isFile? (p.append (rel ++ [name])) = .ok b)
      fun e _ => Unselectable s policy p loc e := by
    refine Ensures.query fun t ht => ?_
    rw [ht.isFile?]
    cases hresult : s.isFile? (p.append (rel ++ [name])) with
    | ok b => exact ⟨ht, rfl⟩
    | error e =>
      have hcases := (hp.append (by rw [hdir]; exact Option.some_ne_none _)).isFile?_cases
        (by rwa [List.append_assoc] : s.files.get? (loc ++ rel ++ [name]) ≠ none)
      rw [← hchild, hresult, List.append_assoc] at hcases
      rcases hcases with ⟨b, hb⟩ | ⟨e', he⟩ | ⟨e', he⟩
      · cases hb
      · exact .inl fun hfree => hfree _ _ he
      · exact .inl fun hfree => hfree _ _ he
  refine hfile.bind fun b => Ensures.of_and fun hb => ?_
  cases b with
  | false => exact Ensures.pure fun t ht => ⟨ht, nofun⟩
  | true =>
    have hkeeps : Preserves (SameSight s) (policy.isStudentFile (p.append (rel ++ [name])) p none) :=
      (Policy.classify_preserves (fun t loaded ht => ⟨⟨ht.files, ht.workingDir⟩, ht.locked⟩) policy _ p none false).bind
        fun _ => Preserves.pure _
    intro t ht
    have hends := hkeeps.ensures t ht
    rcases hperform : (policy.isStudentFile (p.append (rel ++ [name])) p none).perform t with ⟨r, u⟩
    rw [if_pos rfl, hperform]
    rw [hperform] at hends
    cases r with
    | ok b => exact ⟨hends, fun _ => hb⟩
    | error e => exact .inr ⟨_, t, hb, ht, congrArg Prod.fst hperform⟩

/-- The files of the student are some of what is listed, in the same order. -/
private theorem below_ensures (hp : s.Finds p loc) (policy : Policy) :
    Ensures (fun t => t = s)
      (Action.below p fun q => do if ← Action.isFile q then policy.isStudentFile q p none else return false)
      (fun files _ => s.Unobstructed p loc ∧ ∃ rels : List (List String), rels.Sublist (s.files.listing loc) ∧
        files = rels.map p.append ∧ ∀ rel ∈ rels, s.isFile? (p.append rel) = .ok true)
      fun e _ => Unselectable s policy p loc e := by
  have hrun := foldBelow_runs_top (E := fun e _ => Unselectable s policy p loc e)
    (fun acc q => do
      return if ← (do if ← Action.isFile q then policy.isStudentFile q p none else return false) then acc ++ [q]
        else acc)
    (I := fun done acc t => SameSight s t ∧ ∃ rels : List (List String), rels.Sublist done ∧ acc = rels.map p.append ∧
      ∀ rel ∈ rels, s.isFile? (p.append rel) = .ok true) hp
    (fun _ _ t ht => ht.1) (fun _ _ t rel e _ he => .inl fun hfree => hfree rel e he)
    (fun done rel name acc hn => ?_) []
  · refine Ensures.get_bind_of_eq (hrun.mono ?_ (fun _ t ht => ⟨ht.2, ht.1.2⟩) fun _ _ he => he)
    rintro t rfl
    exact ⟨.refl t, [], List.nil_sublist _, rfl, nofun⟩
  · refine Ensures.of_and fun hacc => ?_
    obtain ⟨rels, hsub, rfl, hfiles⟩ := hacc
    refine (keeps_ensures hp policy hn).bind fun b => Ensures.pure fun t ht => ⟨ht.1, ?_⟩
    cases b with
    | false => exact ⟨rels, hsub.trans (List.sublist_append_left done _), rfl, hfiles⟩
    | true =>
      refine ⟨rels ++ [rel ++ [name]], hsub.append (List.Sublist.refl _), by simp, fun x hx => ?_⟩
      rcases List.mem_append.1 hx with hx | hx
      · exact hfiles x hx
      · rw [List.mem_singleton.1 hx]
        exact ht.2 rfl

/-- What leads to a file is a directory, and so it is no file itself. -/
private theorem isFile?_of_directory (hp : s.Finds p loc) {rel : List String}
    (hd : s.files.get? (loc ++ rel) = some .directory) : s.isFile? (p.append rel) ≠ .ok true := by
  have hrel := hp.append (by rw [hd]; exact Option.some_ne_none _ : s.files.get? (loc ++ rel) ≠ none)
  unfold Session.isFile? look
  rw [hrel.hasZero, if_neg Bool.false_ne_true, leadsTo_iff_find.1 (hrel.leads hd)]
  split
  · exact nofun
  · exact fun h => Bool.false_ne_true (Except.ok.inj h)

/-- The directories that lead to files, and these files, are different paths of what is listed. -/
private theorem directoriesTo_append (hp : s.Finds p loc) {rels : List (List String)}
    (hsub : rels.Sublist (s.files.listing loc)) (hfiles : ∀ rel ∈ rels, s.isFile? (p.append rel) = .ok true) :
    (directoriesTo p (rels.map p.append) ++ rels.map p.append).Nodup ∧
      ∀ q ∈ directoriesTo p (rels.map p.append) ++ rels.map p.append, q ∈ (s.files.listing loc).map p.append := by
  have hdirectory : ∀ {first rel}, rel ∈ rels → first <+: rel → first ≠ rel →
      s.files.get? (loc ++ first) = some .directory := by
    rintro first _ hrel ⟨rest, rfl⟩ hne
    have hn := ((Files.mem_listing hp.sound.files).1 (hsub.subset hrel)).2
    rw [← List.append_assoc] at hn
    exact hp.sound.files.ancestor hn fun hrest => hne (by rw [hrest, List.append_nil])
  have hinjective : ∀ a b : List String, p.append a = p.append b → a = b := fun a b he =>
    List.append_cancel_left (congrArg Path.parts he)
  constructor
  · refine List.nodup_append.2 ⟨nodup_eraseDups _, (hsub.nodup Files.nodup_listing).map hinjective, ?_⟩
    rintro q hq q' hq' rfl
    obtain ⟨first, rfl, -, rel, hrel, hbegin, hne⟩ := mem_directoriesTo.1 hq
    obtain ⟨rel', hrel', he⟩ := List.mem_map.1 hq'
    obtain rfl := hinjective _ _ he
    exact isFile?_of_directory hp (hdirectory hrel hbegin hne) (hfiles _ hrel')
  · intro q hq
    rcases List.mem_append.1 hq with hq | hq
    · obtain ⟨first, rfl, hfirst, rel, hrel, hbegin, hne⟩ := mem_directoriesTo.1 hq
      refine List.mem_map_of_mem ((Files.mem_listing hp.sound.files).2 ⟨hfirst, ?_⟩)
      rw [hdirectory hrel hbegin hne]
      exact Option.some_ne_none _
    · obtain ⟨rel, hrel, rfl⟩ := List.mem_map.1 hq
      exact List.mem_map_of_mem (hsub.subset hrel)

/-- The student's paths are in order and among what is listed. -/
private theorem studentPaths_ensures (hp : s.Finds p loc) (policy : Policy) :
    Ensures (fun t => t = s) (studentPaths policy p)
      (fun paths _ => s.Unobstructed p loc ∧ Path.IsIncreasing paths ∧ paths ⊆ (s.files.listing loc).map p.append)
      fun e _ => Unselectable s policy p loc e := by
  unfold studentPaths
  refine (below_ensures hp policy).bind fun files => Ensures.pure fun t ht => ?_
  obtain ⟨hfree, rels, hsub, rfl, hfiles⟩ := ht
  obtain ⟨hnodup, hlisted⟩ := directoriesTo_append hp hsub hfiles
  exact ⟨hfree, Path.isIncreasing_sort hnodup, fun q hq => hlisted q ((sortBy_perm _ _).mem_iff.1 hq)⟩

/-! ### What is submitted -/

/-- The files at the top of a directory are among what is listed. -/
private theorem filesIn_ensures (hp : s.Finds p loc) (hd : s.files.get? loc = some .directory) :
    Ensures (fun t => t = s) (filesIn p) (fun top t => t = s ∧ top ⊆ (s.files.listing loc).map p.append)
      fun _ _ => ¬ s.Unobstructed p loc := by
  have hobstructed : ∀ {e}, s.Obstructs p loc e → ¬ s.Unobstructed p loc := fun he hfree =>
    hfree [] _ (by rwa [Path.append_nil, List.append_nil])
  unfold filesIn entriesWhere
  refine (hp.names_ensures hd (fun t (ht : t = s) => ht ▸ .refl s) fun _ _ _ => hobstructed).bind fun found =>
    Ensures.of_and fun hfound => ?_
  obtain ⟨rfl, -⟩ := hfound
  refine (Ensures.filterM fun name hname => Ensures.query fun t ht => ?_ : Ensures (fun t => t = s) _
    (fun kept t => t = s ∧ ∀ name ∈ kept, name ∈ s.files.names loc ∧ True) _).bind fun kept =>
      Ensures.pure fun t ht => ⟨ht.1, fun q hq => ?_⟩
  · subst ht
    have hcases := hp.isFile?_cases (Files.mem_names.1 hname)
    cases hresult : t.isFile? (p.child name) with
    | ok b => exact ⟨rfl, fun _ => trivial⟩
    | error e =>
      rw [hresult] at hcases
      rcases hcases with ⟨b, hb⟩ | ⟨e', he⟩ | ⟨e', he⟩
      · cases hb
      · exact hobstructed he
      · exact fun hfree => hfree [name] e' he
  · obtain ⟨name, hname, rfl⟩ := List.mem_map.1 hq
    have hmem : name ∈ s.files.names loc := (ht.2 name ((sortBy_perm _ _).mem_iff.1 hname)).1
    exact List.mem_map_of_mem ((Files.mem_listing hp.sound.files).2 ⟨List.cons_ne_nil _ _, Files.mem_names.1 hmem⟩)

/-- What is submitted of a directory is in order and among what is listed. -/
private theorem submittedPaths_ensures (hp : s.Finds p loc) (hd : s.files.get? loc = some .directory)
    (policy : Policy) :
    Ensures (fun t => t = s) (submittedPaths policy p)
      (fun paths _ => s.Unobstructed p loc ∧ Path.IsIncreasing paths ∧ paths ⊆ (s.files.listing loc).map p.append)
      fun e _ => Unselectable s policy p loc e := by
  have htop := ((filesIn_ensures hp hd).during .list p).mono (fun _ ht => ht) (fun _ _ ht => ht)
    fun e _ he => (.inl he : Unselectable s policy p loc e)
  unfold submittedPaths
  refine htop.bind fun top => Ensures.of_and fun hsub => ?_
  refine (studentPaths_ensures hp policy).bind fun student => Ensures.pure fun t ht => ?_
  obtain ⟨hfree, -, hstudent⟩ := ht
  refine ⟨hfree, Path.isIncreasing_sort (nodup_eraseDups _), fun q hq => ?_⟩
  rw [Path.sort, (sortBy_perm _ _).mem_iff, List.mem_eraseDups, List.mem_append] at hq
  exact hq.elim (fun hq => hstudent hq) fun hq => hsub hq

/-- What is submitted of anything is sorted, and it comprises what the student has there. -/
theorem ok_of_submitted (h : ((submittedPaths policy p).perform s).1 = .ok paths) :
    Path.IsIncreasing paths ∧ ∃ student, ((studentPaths policy p).perform s).1 = .ok student := by
  obtain ⟨t, h⟩ := exists_perform_eq h
  unfold submittedPaths at h
  obtain ⟨top, u, htop, hrest⟩ := ok_of_perform_bind h
  obtain rfl : u = s := by rw [← (looks_filesIn p).during .list p s, htop]
  obtain ⟨student, v, hstudent, hsort⟩ := ok_of_perform_bind hrest
  cases hsort
  exact ⟨Path.isIncreasing_sort (nodup_eraseDups _), student, congrArg Prod.fst hstudent⟩

/-! ### The order of all lists -/

/-- An operation that ends with paths in order that are listed, unless it is obstructed, selects paths. -/
private theorem selects_of_ensures {act : Action (List Path)} {rels : List (List String)} (hfree : s.Unobstructed p loc)
    (hrels : rels.Pairwise (· < ·))
    (h : Ensures (fun t => t = s) act
      (fun paths _ => s.Unobstructed p loc ∧ Path.IsIncreasing paths ∧ paths ⊆ rels.map p.append)
      fun e _ => Unselectable s policy p loc e) :
    Selects s policy p (rels.map p.append) (act.perform s).1 := by
  have hends := h s rfl
  rcases hperform : act.perform s with ⟨r, t⟩
  rw [hperform] at hends
  cases r with
  | ok paths =>
    obtain ⟨-, hincreasing, hsub⟩ := hends
    have hanchor : ∀ q ∈ paths, q.anchor = p.anchor := by
      intro q hq
      obtain ⟨rel, -, rfl⟩ := List.mem_map.1 (hsub hq)
      rfl
    exact .inl ⟨paths, rfl, hincreasing, hincreasing.sublist_of_subset (Path.isIncreasing_append hrels p)
      (fun q hq q' hq' => (hanchor q hq).trans (hanchor q' hq').symm) hsub⟩
  | error e => exact .inr ⟨e, rfl, hends.resolve_left fun hnot => hnot hfree⟩

/-- The sorted traversal of what is found at a path has a result if nothing below obstructs it.  Then it lists, in the
order of paths, the path and all that is reached from it through directories; what is archived by default is all of this
but the path, and the student's paths and what is submitted of a directory come in the same order.  Otherwise none of
these lists is made. -/
theorem enumeration_sorted (hs : s.Sound) {node : Node} (hp : s.find false p = .ok ⟨loc, some node⟩) :
    (s.Unobstructed p loc ∧ ∃ defaults,
      (descendants p true true).perform s = (.ok (p :: defaults), s) ∧ Path.IsIncreasing (p :: defaults) ∧
      (∀ q, q ∈ p :: defaults ↔ ∃ rel, q = p.append rel ∧ s.files.Reachable loc rel) ∧
      (∀ format output top, (Archive.create format p output top none).perform s =
        (Archive.create format p output top (some defaults)).perform s) ∧
      ∀ policy, Selects s policy p defaults ((studentPaths policy p).perform s).1 ∧
        (node = .directory → Selects s policy p defaults ((submittedPaths policy p).perform s).1) ∧
        ∀ paths, ((submittedPaths policy p).perform s).1 = .ok paths → Path.IsIncreasing paths) ∨
    (s.Stopped p loc ((descendants p true true).perform s).1 ∧
      (∀ format output top, s.Stopped p loc ((Archive.create format p output top none).perform s).1) ∧
      ∀ policy paths, ((studentPaths policy p).perform s).1 ≠ .ok paths ∧
        ((submittedPaths policy p).perform s).1 ≠ .ok paths) := by
  have hfinds := hs.finds hp
  have hnode : s.files.get? loc = some node := ((find_isSound hs hp).1 : some node = s.files.get? loc).symm
  have hstudent := studentPaths_ensures hfinds
  rcases descendants_cases hfinds true with ⟨hfree, hall⟩ | hstopped
  · have hdefaults : (descendants p false true).perform s = (.ok ((s.files.listing loc).map p.append), s) := by
      rcases descendants_cases hfinds false with ⟨-, hdefaults⟩ | hstopped
      · exact hdefaults
      · exact absurd hfree hstopped.not_unobstructed
    have htop : ([] :: s.files.listing loc).map p.append = p :: (s.files.listing loc).map p.append := by
      rw [List.map_cons, Path.append_nil]
    have hordered : Path.IsIncreasing (p :: (s.files.listing loc).map p.append) := by
      rw [← htop]
      exact Path.isIncreasing_append (Files.pairwise_cons_listing hs.files) p
    refine .inl ⟨hfree, (s.files.listing loc).map p.append, hall, hordered, fun q => ?_, fun format output top => ?_,
      fun policy => ⟨selects_of_ensures hfree Files.pairwise_listing (hstudent policy), fun hd => ?_,
        fun paths h => (ok_of_submitted h).1⟩⟩
    · simp only [← htop, List.mem_map, Files.mem_cons_listing hs.files hfinds.found]
      exact exists_congr fun rel => by rw [and_comm, eq_comm]
    · unfold Archive.create
      dsimp only
      rw [perform_bind_ok hdefaults, pure_bind]
    · subst hd
      exact selects_of_ensures hfree Files.pairwise_listing (submittedPaths_ensures hfinds hnode policy)
  · refine .inr ⟨hstopped, fun format output top => ?_, fun policy paths => ?_⟩
    · rcases descendants_cases hfinds false with ⟨hfree, -⟩ | ⟨rel, e, hobstructs, he⟩
      · exact absurd hfree hstopped.not_unobstructed
      · refine ⟨rel, e, hobstructs, ?_⟩
        unfold Archive.create
        rw [perform_bind_error (perform_eq_of_fst he)]
    · have hnone : ∀ paths, ((studentPaths policy p).perform s).1 ≠ .ok paths := by
        intro paths h
        obtain ⟨t, h⟩ := exists_perform_eq h
        exact hstopped.not_unobstructed ((hstudent policy).ends rfl h).1
      refine ⟨hnone paths, fun h => ?_⟩
      obtain ⟨-, student, hok⟩ := ok_of_submitted h
      exact hnone student hok

/-- A directory beside files whose names begin like its own, with a link back in it. -/
def sampleNames : Session where
  workingDir := []
  scratch := ["tmp"]
  files := ⟨[(["p"], .directory), (["p", "a-b"], .file [] false), (["p", "a"], .directory),
    (["p", "a b"], .file [] false), (["p", "a", "up"], .link ".."), (["p", "a", "b"], .file [] false)]⟩

/-- What lies in `a` comes before `a b`, though a space comes before a slash; the link is listed and not entered. -/
theorem sampleNames_inOrder :
    let p : Path := Location.path ["p"]
    let listed := ["/p", "/p/a", "/p/a/b", "/p/a/up", "/p/a b", "/p/a-b"].map Path.ofString
    let policy : Policy := { kind := .everything, configParent := p, number := 0 }
    sampleNames.Unobstructed p ["p"] ∧ ((descendants p true true).perform sampleNames).1 = .ok listed ∧
      Path.IsIncreasing listed ∧
      Selects sampleNames policy p listed.tail ((submittedPaths policy p).perform sampleNames).1 ∧
      ((submittedPaths policy p).perform sampleNames).1 =
        .ok (["/p/a", "/p/a/b", "/p/a b", "/p/a-b"].map Path.ofString) := by
  intro p listed policy
  have hs : sampleNames.Sound := ⟨Files.wellFormed_of_entries (by decide +kernel), rfl⟩
  have hp : sampleNames.find false p = .ok ⟨["p"], some .directory⟩ := by decide +kernel
  have hlisted : ((descendants p true true).perform sampleNames).1 = .ok listed := by decide +kernel
  rcases enumeration_sorted hs hp with ⟨hfree, defaults, hall, hincreasing, -, -, hselects⟩ | ⟨⟨rel, e, -, hfails⟩, -⟩
  · have hdefaults : p :: defaults = listed := Except.ok.inj ((congrArg Prod.fst hall).symm.trans hlisted)
    rw [← hdefaults]
    refine ⟨hfree, congrArg Prod.fst hall, hincreasing, (hselects policy).2.1 rfl, by decide +kernel⟩
  · cases hlisted.symm.trans hfails

/-- A name of 256 bytes. -/
def longTarget : String := String.ofList (List.replicate 256 'n')

/-- A directory with a link to a name that is too long. -/
def sampleLongLink : Session where
  workingDir := []
  scratch := ["tmp"]
  files := ⟨[(["p"], .directory), (["p", "x"], .link longTarget)]⟩

private theorem pieces_longTarget : Path.pieces longTarget = [longTarget] := by
  have htext : longTarget.toList = List.replicate 256 'n' := String.toList_ofList
  rw [Path.pieces, htext, show splitAt '/' (List.replicate 256 'n') = [List.replicate 256 'n'] by decide +kernel]
  rfl

/-- A link to a name that is too long cannot be followed. -/
private theorem walk_long_link {f : Files} {dir : Location} {c target : String} {n : Nat} (hc : IsPlain c)
    (hshort : c.utf8ByteSize ≤ maxName) (hlink : f.get? (dir ++ [c]) = some (.link target)) (hplain : IsPlain target)
    (hpieces : Path.pieces target = [target]) (hlong : maxName < target.utf8ByteSize) :
    f.walk true (n + 1) dir [c] = .error .nameTooLong := by
  rw [Files.walk_name hc hshort, hlink]
  show f.walk true n _ (Path.pieces target ++ []) = _
  rw [hpieces, List.append_nil, Files.walk_long hplain hlong]

/-- What the directory holds is not listed, because it cannot be told whether the link leads to a directory. -/
theorem sampleLongLink_notListed :
    sampleLongLink.Sound ∧ sampleLongLink.find false (Location.path ["p"]) = .ok ⟨["p"], some .directory⟩ ∧
    sampleLongLink.Obstructs (Location.path ["p", "x"]) ["p", "x"]
      (refuse .nameTooLong (Location.path ["p", "x"]).written) ∧
    ∀ paths, ((descendants (Location.path ["p"]) true true).perform sampleLongLink).1 ≠ .ok paths := by
  have hs : sampleLongLink.Sound := ⟨Files.wellFormed_of_entries (by decide +kernel), rfl⟩
  have hp : sampleLongLink.find false (Location.path ["p"]) = .ok ⟨["p"], some .directory⟩ := by decide +kernel
  have hlink : sampleLongLink.Obstructs (Location.path ["p", "x"]) ["p", "x"]
      (refuse .nameTooLong (Location.path ["p", "x"]).written) := by
    refine .tooLong rfl ?_
    show sampleLongLink.files.walk true maxLinks [] ["p", "x"] = _
    rw [Files.walk_name (by decide +kernel) (by decide +kernel)]
    show sampleLongLink.files.walk true maxLinks ["p"] ["x"] = _
    exact walk_long_link (by decide +kernel) (by decide +kernel) rfl ⟨by decide +kernel, by decide +kernel⟩
      pieces_longTarget (by decide +kernel)
  refine ⟨hs, hp, hlink, fun paths h => ?_⟩
  rcases descendants_cases (hs.finds hp) true with ⟨hfree, -⟩ | ⟨rel, e, -, hfails⟩
  · exact hfree ["x"] _ hlink
  · cases h.symm.trans hfails

end Submission

end Handout

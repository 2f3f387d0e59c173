import Handout.Archive.Search
import Handout.Proofs.Files.Depth
import Handout.Proofs.Files.Source
import Handout.Proofs.Project.Ecosystem

/-!
# Which project is found

Where every directory can be listed, and it can be told what each link leads to, a search comes to the directories in
the order of `Files.visits`, and finds the first one that satisfies the test (`perform_findDirectory`): the one of
least depth, and the first of these by names.  What is found as a project has an ecosystem (`get_of_findProject?`).
-/

namespace Handout

open Handout.Action Session

variable {s t : Session} {p : Path} {d : Location} {rel : List String}

/-- A path leads to a directory that can be searched: no directory below it is locked, and what the links lead to can
be told. -/
structure Session.Searchable (s : Session) (p : Path) (d : Location) : Prop where
  sound : s.Sound
  leads : s.LeadsTo p d
  unlocked : ∀ rel, s.files.get? (d ++ rel) = some .directory → p.append rel ∉ s.locked
  answers : ∀ rel target, s.files.get? (d ++ rel) = some (.link target) → ∃ node, s.look true (p.append rel) = .ok node

namespace Session.Searchable

theorem directory (h : s.Searchable p d) : s.files.get? d = some .directory := h.leads.directory h.sound

/-- The names in a directory are found out. -/
theorem names_ensures (h : s.Searchable p d) (hd : s.files.get? (d ++ rel) = some .directory) :
    Ensures (fun t => t = s) (names (p.append rel).written) (fun found t => t = s ∧ found = s.files.names (d ++ rel))
      fun _ _ => False := by
  have hleads := h.leads.append h.sound hd
  refine Ensures.query ?_
  rintro t rfl
  have hlocked : t.locked.contains (p.append rel) = false :=
    Bool.eq_false_iff.2 fun hc => h.unlocked rel hd (List.contains_iff_mem.1 hc)
  unfold Session.names?
  rw [show (p.append rel).written.path = p.append rel from rfl, hlocked, if_neg Bool.false_ne_true,
    hleads.hasZero h.sound, if_neg Bool.false_ne_true, leadsTo_iff_find.1 hleads]
  exact ⟨rfl, rfl⟩

/-- For an entry of a directory it is found out whether it is a directory and no link. -/
theorem isRealDirectory_ensures (h : s.Searchable p d) (hd : s.files.get? (d ++ rel) = some .directory) {c : String}
    (hc : c ∈ s.files.names (d ++ rel)) :
    Ensures (fun t => t = s) (do
        if ← isDirectory ((p.append rel).child c) then return !(← isLink ((p.append rel).child c)) else return false)
      (fun b t => t = s ∧ b = isDirectoryNode (s.files.get? (d ++ (rel ++ [c])))) fun _ _ => False := by
  have hleads := h.leads.append h.sound hd
  have hproper : IsProper c := h.sound.files.proper (Files.mem_names.1 hc)
  -- an entry is looked at with and without following a link
  have hlook : ∃ followed stored, s.look true ((p.append rel).child c) = .ok followed ∧
      s.look false ((p.append rel).child c) = .ok stored ∧
      (isDirectoryNode followed && !isLinkNode stored) = isDirectoryNode (s.files.get? (d ++ (rel ++ [c]))) := by
    by_cases hl : ∃ target, s.files.get? (d ++ (rel ++ [c])) = some (.link target)
    · obtain ⟨target, hl⟩ := hl
      obtain ⟨followed, hfollowed⟩ := h.answers _ _ hl
      have hstored : s.look false ((p.append rel).child c) = .ok (some (.link target)) := by
        rw [← List.append_assoc] at hl
        unfold Session.look
        rw [Path.hasZero_child (hleads.hasZero h.sound) hproper.noZero, if_neg Bool.false_ne_true,
          find_child_of_link hleads hproper.plain hproper.short hl]
      rw [← Path.append_append] at hfollowed
      refine ⟨followed, _, hfollowed, hstored, ?_⟩
      rw [hl]
      exact Bool.and_false _
    · have hreaches := reaches_child hleads h.sound hproper fun target hn => hl ⟨target, by
        rw [← List.append_assoc, hn]⟩
      refine ⟨_, _, hreaches.look true, hreaches.look false, ?_⟩
      rw [List.append_assoc]
      cases hn : s.files.get? (d ++ (rel ++ [c])) with
      | none => rfl
      | some node =>
        cases node with
        | directory => rfl
        | file data executable => rfl
        | link target => exact absurd ⟨target, hn⟩ hl
  obtain ⟨followed, stored, hfollowed, hstored, hboth⟩ := hlook
  have hdirectory : Ensures (fun t => t = s) (isDirectory ((p.append rel).child c))
      (fun b t => t = s ∧ b = isDirectoryNode followed) fun _ _ => False := by
    refine Ensures.query ?_
    rintro t rfl
    unfold Session.isDirectory?
    rw [hfollowed]
    exact ⟨rfl, rfl⟩
  have hlink : Ensures (fun t => t = s) (isLink ((p.append rel).child c))
      (fun b t => t = s ∧ b = isLinkNode stored) fun _ _ => False := by
    refine Ensures.query ?_
    rintro t rfl
    unfold Session.isLink?
    rw [hstored]
    exact ⟨rfl, rfl⟩
  refine hdirectory.bind fun b => Ensures.of_and fun hb => ?_
  rw [← hboth, ← hb]
  cases b with
  | false => exact Ensures.pure fun t ht => ⟨ht, rfl⟩
  | true =>
    refine hlink.bind fun b => Ensures.of_and fun hb => ?_
    rw [← hb]
    exact Ensures.pure fun t ht => ⟨ht, rfl⟩

/-- The subdirectories of a directory are found out, in order. -/
theorem perform_readableDirectoriesIn (h : s.Searchable p d) (hd : s.files.get? (d ++ rel) = some .directory) :
    (readableDirectoriesIn (p.append rel)).perform s = (.ok ((s.files.subdirectories d rel).map p.append), s) := by
  have hfound : Ensures (fun t => t = s) (readableDirectoriesIn (p.append rel))
      (fun ps t => t = s ∧ ps = (s.files.subdirectories d rel).map p.append) fun _ _ => False := by
    refine Ensures.tryCatch (F := fun _ _ => False) ?_ fun _ _ he => he.elim
    unfold directoriesIn entriesWhere
    refine (h.names_ensures hd).bind fun found => Ensures.of_and fun hnames => ?_
    subst hnames
    refine (Ensures.filterM_eq _ fun c hc => h.isRealDirectory_ensures hd hc).bind fun kept => Ensures.of_and fun hkept => ?_
    subst hkept
    refine Ensures.pure fun t ht => ⟨ht, ?_⟩
    unfold Files.subdirectories
    rw [List.map_map]
    refine List.map_congr_left fun c _ => ?_
    rw [Function.comp_apply, ← Path.append_append]
    rfl
  obtain ⟨ps, t, hperform, rfl, rfl⟩ := hfound.succeeds rfl
  exact hperform

end Session.Searchable

/-! ### The search -/

/-- A search goes through the visits until the test is satisfied. -/
theorem perform_foldByDepth (h : s.Searchable p d) {test : Path → Action Bool} {isRoot : List String → Bool}
    (htest : ∀ rel, s.files.get? (d ++ rel) = some .directory → (test (p.append rel)).perform s = (.ok (isRoot rel), s))
    {n : Nat} {queue : List (List String)} (hqueue : ∀ rel ∈ queue, s.files.get? (d ++ rel) = some .directory) :
    (foldByDepth (fun _ dir => do
        if ← test dir then return (true, some dir) else return (false, none)) n none (queue.map p.append)).perform s =
      (.ok (((s.files.visits d n queue).find? isRoot).map p.append), s) := by
  induction n generalizing queue with
  | zero => rfl
  | succ n ih =>
    cases queue with
    | nil => rfl
    | cons rel queue =>
      have hrel := hqueue rel (List.mem_cons_self ..)
      have hvisit : (do if ← test (p.append rel) then return (true, some (p.append rel)) else return (false, none) :
          Action (Bool × Option Path)).perform s =
            (.ok (if isRoot rel then (true, some (p.append rel)) else (false, none)), s) := by
        rw [perform_bind_ok (htest rel hrel)]
        cases isRoot rel <;> rfl
      rw [List.map_cons]
      unfold foldByDepth Files.visits
      rw [perform_bind_ok hvisit, List.find?_cons]
      cases isRoot rel with
      | true => rfl
      | false =>
        dsimp only
        rw [if_neg Bool.false_ne_true, if_neg Bool.false_ne_true, perform_bind_ok (h.perform_readableDirectoriesIn hrel),
          ← List.map_append]
        refine ih fun x hx => ?_
        rcases List.mem_append.1 hx with hx | hx
        · exact hqueue x (List.mem_cons_of_mem _ hx)
        · obtain ⟨c, rfl, hc⟩ := Files.mem_subdirectories.1 hx
          exact hc

/-- The search comes to all directories in order and takes the first one that satisfies the test. -/
theorem perform_findDirectory (h : s.Searchable p d) {test : Path → Action Bool} {isRoot : List String → Bool}
    (htest : ∀ rel, s.files.get? (d ++ rel) = some .directory → (test (p.append rel)).perform s = (.ok (isRoot rel), s)) :
    (findDirectory p test).perform s =
      (.ok (((s.files.visits d (s.files.entries.length + 2) [[]]).find? isRoot).map p.append), s) := by
  have htop : ∀ rel ∈ [[]], s.files.get? (d ++ rel) = some .directory := by
    intro rel hrel
    rw [List.mem_singleton.1 hrel, List.append_nil, h.directory]
  have hrun := perform_foldByDepth h htest (n := s.files.entries.length + 2) htop
  rw [List.map_singleton, Path.append_nil] at hrun
  exact hrun

namespace Archive

/-- What a search returns has passed the test in the session in which the search ends. -/
theorem test_of_foldByDepth {test : Path → Action Bool} (hlooks : ∀ p, Looks (test p)) {n : Nat} {queue : List Path}
    {root : Path} (h : (foldByDepth (fun _ dir => do
        if ← test dir then return (true, some dir) else return (false, none)) n none queue).perform s = (.ok (some root), t)) :
    (test root).perform t = (.ok true, t) := by
  induction n generalizing s queue with
  | zero => cases h
  | succ n ih =>
    cases queue with
    | nil => cases h
    | cons dir queue =>
      unfold foldByDepth at h
      obtain ⟨⟨stop, acc⟩, u, hvisit, hrest⟩ := ok_of_perform_bind h
      obtain ⟨passed, v, htest, hvisited⟩ := ok_of_perform_bind hvisit
      have hv : v = s := by
        have hlook := hlooks dir s
        rwa [htest] at hlook
      subst hv
      cases passed with
      | true =>
        cases hvisited
        cases hrest
        exact htest
      | false =>
        cases hvisited
        obtain ⟨children, w, -, hmore⟩ := ok_of_perform_bind hrest
        exact ih hmore

/-- What is found as a project has an ecosystem. -/
theorem get_of_findProject? {root : Path} (h : (findProject? p).perform s = (.ok (some root), t)) :
    ∃ e, (Ecosystem.get root).perform t = (.ok e, t) := by
  have hroot : (Ecosystem.isProjectRoot root).perform t = (.ok true, t) :=
    test_of_foldByDepth Ecosystem.looks_isProjectRoot h
  obtain ⟨isDirectory, u, hdirectory, hrest⟩ := ok_of_perform_bind hroot
  have hu : u = t := by
    have hlook := looks_isDirectory root t
    rwa [hdirectory] at hlook
  subst hu
  cases isDirectory with
  | false => cases hrest
  | true =>
    obtain ⟨found, v, hfind, hsome⟩ := ok_of_perform_bind hrest
    cases found with
    | none => cases hsome
    | some e =>
      cases hsome
      exact ⟨e, perform_bind_ok hfind _⟩

/-- Where a directory can be searched, a search with a test that has an answer for every directory ends.  It finds
nothing exactly if no directory at or below the one that is searched satisfies the test, where links are not followed;
else it finds one that does, and none that does has less depth, or the same depth and smaller names.  What is found as
a project has an ecosystem. -/
theorem findDirectory_first (h : s.Searchable p d) {test : Path → Action Bool} {isRoot : List String → Bool}
    (htest : ∀ rel, s.files.get? (d ++ rel) = some .directory → (test (p.append rel)).perform s = (.ok (isRoot rel), s)) :
    ∃ found, (findDirectory p test).perform s = (.ok found, s) ∧
      (found = none ↔ ∀ rel, s.files.get? (d ++ rel) = some .directory → isRoot rel = false) ∧
      (∀ root, found = some root → ∃ rel, root = p.append rel ∧ s.files.get? (d ++ rel) = some .directory ∧
        isRoot rel = true ∧ ∀ other, s.files.get? (d ++ other) = some .directory → isRoot other = true → ¬ Before other rel) ∧
      ∀ root t, (findProject? p).perform s = (.ok (some root), t) → ∃ e, (Ecosystem.get root).perform t = (.ok e, t) := by
  have hbound : s.files.entries.length + 1 < s.files.entries.length + 2 := Nat.lt_succ_self _
  refine ⟨_, perform_findDirectory h htest, ?_, fun root hroot => ?_, fun root t => get_of_findProject?⟩
  · rw [Option.map_eq_none_iff, Files.find?_visits_eq_none h.sound.files h.directory hbound]
  · obtain ⟨rel, hrel, rfl⟩ := Option.map_eq_some_iff.1 hroot
    exact ⟨rel, rfl, Files.least_of_find?_visits h.sound.files h.directory hbound hrel⟩

/-- A session in a directory `w` with two projects of one depth in different directories of `x`, and a link that leads
back. -/
def sampleCousins : Session where
  files := ⟨[(["w"], .directory), (["w", "x"], .directory), (["w", "x", "b"], .directory),
    (["w", "x", "b", "a"], .directory), (["w", "x", "b", "a", "Makefile"], .file [] false), (["w", "x", "a"], .directory),
    (["w", "x", "a", "z"], .directory), (["w", "x", "a", "z", "build.xml"], .file [] false),
    (["w", "x", "back"], .link "..")]⟩
  workingDir := ["w"]
  scratch := ["t"]

/-- Of two cousins the one with the smaller parent is found. -/
theorem sampleCousins_first :
    sampleCousins.Searchable ⟨.relative, ["x"]⟩ ["w", "x"] ∧
      (findProject? ⟨.relative, ["x"]⟩).perform sampleCousins = (.ok (some ⟨.relative, ["x", "a", "z"]⟩), sampleCousins) ∧
      ∃ e, (Ecosystem.get ⟨.relative, ["x", "a", "z"]⟩).perform sampleCousins = (.ok e, sampleCousins) := by
  have hstored : ∀ rel, sampleCousins.files.get? (["w", "x"] ++ rel) ≠ none →
      rel ∈ sampleCousins.files.entries.map fun e => e.1.drop 2 := by
    intro rel hrel
    obtain ⟨node, hnode⟩ := (Files.get?_eq_some_iff_mem (by simp)).1 hrel
    exact List.mem_map.2 ⟨_, hnode, rfl⟩
  have hlink : ∀ rel ∈ sampleCousins.files.entries.map fun e => e.1.drop 2,
      (sampleCousins.files.get? (["w", "x"] ++ rel)).any Node.isLink = true → rel = ["back"] := by decide +kernel
  have hsearchable : sampleCousins.Searchable ⟨.relative, ["x"]⟩ ["w", "x"] := by
    refine ⟨⟨Files.wellFormed_of_entries (by decide +kernel), rfl⟩, leadsTo_iff_find.2 (by decide +kernel),
      fun _ _ => List.not_mem_nil, fun rel target hrel => ?_⟩
    rw [hlink rel (hstored rel (by rw [hrel]; exact Option.some_ne_none _)) (by rw [hrel]; rfl)]
    exact ⟨some .directory, by decide +kernel⟩
  let isRoot : List String → Bool := fun rel => [["a", "z"], ["b", "a"]].contains rel
  have htest : ∀ rel, sampleCousins.files.get? (["w", "x"] ++ rel) = some .directory →
      (Ecosystem.isProjectRoot (Path.append ⟨.relative, ["x"]⟩ rel)).perform sampleCousins = (.ok (isRoot rel), sampleCousins) := by
    have hanswers : ∀ rel ∈ sampleCousins.files.entries.map fun e => e.1.drop 2,
        sampleCousins.files.get? (["w", "x"] ++ rel) = some .directory →
        ((Ecosystem.isProjectRoot (Path.append ⟨.relative, ["x"]⟩ rel)).perform sampleCousins).1 = .ok (isRoot rel) := by
      decide +kernel
    intro rel hrel
    refine Prod.ext (hanswers rel (hstored rel (by rw [hrel]; exact Option.some_ne_none _)) hrel) ?_
    exact Ecosystem.looks_isProjectRoot _ _
  have hcousin : sampleCousins.files.get? (["w", "x"] ++ ["a", "z"]) = some .directory := rfl
  obtain ⟨found, hperform, hnone, hfirst, hget⟩ := findDirectory_first hsearchable htest
  cases found with
  | none =>
    have hnot : isRoot ["a", "z"] = false := hnone.1 rfl ["a", "z"] hcousin
    exact absurd hnot (by decide)
  | some root =>
    obtain ⟨rel, rfl, -, hroot, hleast⟩ := hfirst root rfl
    have hrel : rel = ["a", "z"] ∨ rel = ["b", "a"] := by simpa [isRoot] using hroot
    obtain rfl : rel = ["a", "z"] :=
      hrel.resolve_right fun hother => hleast ["a", "z"] hcousin (by decide) (by rw [hother]; decide)
    exact ⟨hsearchable, hperform, hget _ _ hperform⟩

end Archive

end Handout

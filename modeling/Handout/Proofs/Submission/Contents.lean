import Handout.Proofs.Project.Spelling
import Handout.Proofs.Submission.Selection

/-!
# What the archive of a project holds

A policy takes the same files throughout, for it loads its configuration at most once and nothing that it looks at
changes (`Policy.Alike.isStudentFile_ensures`).  So the archive of a project without links holds the files at the top,
the files that the policy takes, and the directories that lead to these, each once and in order, below the directory of
the project (`compress_contents`).  This presupposes that the draft of the archive is no link and leads to nothing that
is archived.
-/

namespace Handout

open Handout.Action Session

variable {s t : Session} {p project output : Path} {d : Location} {e : Ecosystem} {c : Config} {policy : Policy}
  {rel : List String}

/-- What an operation that only looks gives in the second of two sessions, it gives in the first. -/
theorem Action.Agrees.ends {α : Type} {act : Action α} (h : Agrees s t act) :
    Ends (fun a u => u = t ∧ (act.perform s).1 = .ok a) (fun _ u => u = t) (act.perform t) := by
  obtain ⟨-, hend, hsame⟩ := h
  rcases hrun : act.perform t with ⟨r, u⟩
  rw [hrun] at hend hsame
  cases r with
  | ok a => exact ⟨hend, hsame⟩
  | error e => exact hend

theorem SameStore.exists? (h : SameStore s t) (p : Path) : s.exists? p = t.exists? p := by
  unfold Session.exists? Session.look
  rw [h.find]

theorem SameStore.resolve? (h : SameStore s t) (p : Path) : s.resolve? p = t.resolve? p := by
  unfold Session.resolve?
  simp only [h.find, h.files, h.workingDir]

theorem SameStore.straight (h : SameStore s t) (hs : s.Straight project d) : t.Straight project d where
  sound := ⟨h.files ▸ hs.sound.files, by rw [h.files, h.workingDir]; exact hs.sound.workingDir⟩
  reaches := ⟨hs.reaches.hasZero, fun follow => by rw [h.find, h.files]; exact hs.reaches.find follow⟩
  directory := by rw [h.files]; exact hs.directory
  noLink rel target := by rw [h.files]; exact hs.noLink rel target

namespace Policy

/-! ### A policy in two sessions -/

/-- With a given configuration, or without need of one, a path is classified alike as long as the same is stored. -/
theorem classify_agrees (h : SameStore s t) (policy : Policy) (p project : Path) (given : Option Config)
    (hgiven : ∀ e, policy.kind = .ecosystem e → given ≠ none) (updating : Bool) :
    Agrees s t (policy.classify p project given updating) := by
  have hresolve : ∀ q, Agrees s t (resolve q) := fun q => Agrees.query (h.resolve? q)
  have hconfigured : ∀ base real entries, Agrees s t (isConfigured base real entries) := fun base _ _ =>
    ((hresolve base).bind fun _ _ => Agrees.mapM fun _ _ => hresolve _).bind fun _ _ => Agrees.pure _
  cases hkind : policy.kind with
  | nothing =>
    unfold classify
    rw [hkind]
    exact Agrees.pure _
  | everything =>
    unfold classify
    rw [hkind]
    dsimp only
    split
    · exact Agrees.pure _
    · refine (hresolve p).bind fun real _ => (hresolve project).bind fun base _ => ?_
      split <;> exact Agrees.pure _
  | ecosystem e =>
    obtain ⟨c, rfl⟩ := Option.ne_none_iff_exists'.1 (hgiven e hkind)
    rw [classify_some hkind]
    refine (Agrees.query (h.exists? p)).bind fun there _ => ?_
    split
    · exact Agrees.pure _
    split
    · exact Agrees.pure _
    unfold classifyExisting
    refine (hresolve p).bind fun real _ => (hresolve project).bind fun base _ => Agrees.bind ?_ fun forced _ => ?_
    · split
      · exact hconfigured _ _ _
      · exact Agrees.pure _
    split
    · exact Agrees.pure _
    refine (hconfigured _ _ _).bind fun exercise _ => ?_
    split
    · exact Agrees.pure _
    split
    · exact Agrees.pure _
    refine (hconfigured _ _ _).bind fun student _ => ?_
    split <;> exact Agrees.pure _

/-- A session in which the same is stored and a policy takes the same configuration as in another one. -/
structure Alike (policy : Policy) (s t : Session) : Prop extends SameStore s t where
  config : (policy.config.perform t).1 = (policy.config.perform s).1

theorem Alike.refl (policy : Policy) (s : Session) : Alike policy s s := ⟨.refl s, rfl⟩

theorem Alike.log (h : Alike policy s t) (record : LogRecord) : Alike policy s { t with log := t.log ++ [record] } :=
  ⟨h.toSameStore.note _ _ record, (Submission.perform_config_log policy t record).trans h.config⟩

/-- Taking the configuration keeps it. -/
theorem Alike.of_config (h : Alike policy s t) {u : Session} (hrun : policy.config.perform t = (.ok c, u)) :
    Alike policy s u := by
  have hagain := (config_ensures (P := fun _ => True) (c := c) fun _ _ _ => trivial).ends ⟨trivial, by rw [hrun]⟩ hrun
  obtain ⟨loaded, rfl⟩ := perform_config_files hrun
  exact ⟨⟨h.files, h.workingDir⟩, by rw [hagain.1.2, ← h.config, hrun]⟩

/-- A policy takes a path of a project for a file of the student. -/
def Takes (policy : Policy) (s : Session) (project : Path) (rel : List String) : Prop :=
  ((policy.isStudentFile (project.append rel) project none).perform s).1 = .ok true

instance (policy : Policy) (s : Session) (project : Path) (rel : List String) : Decidable (policy.Takes s project rel) :=
  inferInstanceAs (Decidable (_ = _))

/-- Whatever a policy has been asked before, it classifies a path alike. -/
theorem Alike.classify_ensures (policy : Policy) (s : Session) (p project : Path) (updating : Bool) :
    Ensures (Alike policy s) (policy.classify p project none updating)
      (fun v t => Alike policy s t ∧ ((policy.classify p project none updating).perform s).1 = .ok v)
      fun _ _ => True := by
  intro t ht
  by_cases hkind : ∃ e, policy.kind = .ecosystem e
  · obtain ⟨e, hkind⟩ := hkind
    have hconfig := ht.config
    rcases hrun : policy.config.perform t with ⟨r, u⟩
    rcases hrun' : policy.config.perform s with ⟨r', u'⟩
    rw [hrun, hrun'] at hconfig
    obtain rfl : r = r' := hconfig
    cases r with
    | error e =>
      have hfails : (policy.classify p project none updating).perform t = (.error e, u) := by
        rw [classify_none hkind]
        exact perform_bind_error hrun _
      rw [hfails]
      trivial
    | ok c =>
      have hu := ht.of_config hrun
      have hu' := (Alike.refl policy s).of_config hrun'
      have hagrees := classify_agrees ⟨hu.files.trans hu'.files.symm, hu.workingDir.trans hu'.workingDir.symm⟩ policy p project
        (some c) nofun updating
      have hperform : ∀ {v w}, policy.config.perform v = (.ok c, w) → (policy.classify p project none updating).perform v =
          (policy.classify p project (some c) updating).perform w := fun h => by rw [classify_none hkind, perform_bind_ok h]
      rw [hperform hrun, hperform hrun']
      exact hagrees.ends.mono (fun v w hw => ⟨hw.1 ▸ hu, hw.2⟩) fun _ _ _ => trivial
  · have hagrees := classify_agrees ht.toSameStore policy p project none (fun e he => absurd ⟨e, he⟩ hkind) updating
    exact hagrees.ends.mono (fun v w hw => ⟨hw.1 ▸ ht, hw.2⟩) fun _ _ _ => trivial

/-- Whatever a policy has been asked before, it takes the same files. -/
theorem Alike.isStudentFile_ensures (policy : Policy) (s : Session) (project : Path) (rel : List String) :
    Ensures (Alike policy s) (policy.isStudentFile (project.append rel) project none)
      (fun b t => Alike policy s t ∧ b = decide (policy.Takes s project rel)) fun _ _ => True := by
  refine (Alike.classify_ensures policy s (project.append rel) project false).bind fun v => Ensures.of_and fun hv =>
    Ensures.pure fun t ht => ⟨ht, ?_⟩
  obtain ⟨u, hrun⟩ := exists_perform_eq hv
  have hresult : ((policy.isStudentFile (project.append rel) project none).perform s).1 =
      .ok (v == Classification.studentFile) := by
    unfold isStudentFile
    rw [perform_bind_ok hrun]
    rfl
  have htakes : policy.Takes s project rel ↔ (v == Classification.studentFile) = true := by
    unfold Takes
    rw [hresult]
    exact ⟨Except.ok.inj, fun h => by rw [h]⟩
  rw [Bool.eq_iff_iff, decide_eq_true_eq]
  exact htakes.symm

end Policy

namespace Submission

/-! ### The entries -/

/-- At some names there is a file that a policy takes for a file of the student. -/
def IsTaken (policy : Policy) (s : Session) (project : Path) (d : Location) (rel : List String) : Prop :=
  isFileNode (s.files.content d rel) = true ∧ policy.Takes s project rel

instance (policy : Policy) (s : Session) (project : Path) (d : Location) (rel : List String) :
    Decidable (IsTaken policy s project d rel) := inferInstanceAs (Decidable (_ ∧ _))

/-- The entry for what is at some names in a directory, under the name of the directory. -/
def entryIn (name : String) (content : Content) (rel : List String) : Archive.Entry :=
  let node := (content rel).getD .directory
  ⟨"/".intercalate (name :: rel) ++ if node = .directory then "/" else "", node⟩

theorem entryBelow_topOf {name : String} (hname : d.getLast? = some name) (content : Content) (rel : List String) :
    Archive.entryBelow .zip (topOf d) content rel = entryIn name content rel := by
  have htext : (⟨.relative, name :: rel⟩ : Path).toString = "/".intercalate (name :: rel) := by
    have hhere : (⟨.relative, name :: rel⟩ : Path) ≠ Path.here := nofun
    unfold Path.toString
    rw [if_neg hhere]
    exact String.empty_append
  unfold Archive.entryBelow Archive.entryName entryIn
  rw [topNames_topOf, hname]
  dsimp only [Option.toList_some, List.singleton_append]
  rw [htext]
  by_cases hnode : (content rel).getD .directory = .directory
  · rw [if_pos ⟨rfl, hnode⟩, if_pos hnode]
  · rw [if_neg fun h => hnode h.2, if_neg hnode, String.append_empty]

/-- While a draft is there, the entries for what is included are made of what the project holds, as long as the draft
has not been written over any of it. -/
theorem perform_entries_beside {u : Session} {draft : Path} {loc : Location} {name : String} {rels : List (List String)}
    (hs : s.Straight project d) (hsame : SameStore s u) (hwrote : Wrote u draft [] loc t) (hname : d.getLast? = some name)
    (hexists : ∀ rel ∈ rels, s.files.get? (d ++ rel) ≠ none) (hapart : ∀ rel ∈ rels, d ++ rel ≠ loc) :
    (Archive.entries .zip draft project (topOf d) (rels.map project.append)).perform t =
      (.ok (([] :: rels).map (entryIn name (s.files.content d))), t) := by
  have hd : s.files.get? (d ++ []) = some .directory := by rw [List.append_nil, hs.directory]
  have hreaches : ∀ rel ∈ [] :: rels, t.Reaches (project.append rel) (d ++ rel) ∧
      t.files.get? (d ++ rel) = s.files.get? (d ++ rel) ∧ s.files.get? (d ++ rel) ≠ none := by
    intro rel hrel
    have hboth : s.files.get? (d ++ rel) ≠ none ∧ d ++ rel ≠ loc := by
      rcases List.mem_cons.1 hrel with rfl | hrel
      · refine ⟨by rw [hd]; exact Option.some_ne_none _, ?_⟩
        rintro rfl
        have hleaf := hwrote.leaf
        rw [hsame.files, hd] at hleaf
        rcases hleaf with hnone | ⟨_, _, hfile⟩
        · cases hnone
        · cases hfile
      · exact ⟨hexists rel hrel, hapart rel hrel⟩
    obtain ⟨hn, hne⟩ := hboth
    have hn' : u.files.get? (d ++ rel) ≠ none := by rwa [hsame.files]
    refine ⟨hwrote.reaches ((hsame.straight hs).reaches_append hn') hne hn', ?_, hn⟩
    rw [hwrote.others _ hne, hsame.files]
  have htop : (topOf d).isSome = true := by
    unfold topOf
    rw [hname]
    rfl
  have hentries : (Archive.entries .zip draft project (topOf d) (rels.map project.append)).perform t =
      (.ok ((Archive.withTop (topOf d) rels).map (Archive.entryBelow .zip (topOf d) (s.files.content d))), t) :=
    Archive.perform_entriesOf hs.sound.files hreaches (fun _ => relative_of_topOf) (plain_of_topOf hs) nofun
  rw [hentries, funext (entryBelow_topOf hname (s.files.content d)), Archive.withTop, if_pos htop]

/-- The archive of a project in which there are no links holds the directory of the project and in it what is included:
the files at the top, the files that the policy takes for the student's, and the directories that lead to these.  The
draft of the archive has to be no link, and it may not lead to what is archived. -/
theorem compress_contents (hs : s.Straight project d) (hd : d ≠ [])
    (hlink : ∀ loc target, s.find false (output.addSuffix ".tmp") ≠ .ok ⟨loc, some (.link target)⟩)
    (hdraft : ∀ rel node, IsIncluded (IsTaken policy s project d) (s.files.content d) rel →
      s.find true (output.addSuffix ".tmp") ≠ .ok ⟨d ++ rel, node⟩)
    (h : (compress policy project output).perform s = (.ok (), t)) :
    ∃ name rels, d.getLast? = some name ∧ Comprises (IsTaken policy s project d) (s.files.content d) rels ∧
      ∃ place executable, s.find false output = .ok place ∧ t.files.get? place.location =
        some (.file (Archive.encode .zip (([] :: rels).map (entryIn name (s.files.content d)))) executable) := by
  obtain ⟨name, hname⟩ : ∃ name, d.getLast? = some name := ⟨_, List.getLast?_eq_some_getLast hd⟩
  obtain ⟨record, record', paths, u, hpaths, hcreate⟩ := ok_of_compress hs h
  -- the paths are chosen by a policy that is asked many times
  have hstart := (Policy.Alike.refl policy s).log record
  obtain ⟨hu, rfl⟩ := ok_of_submittedPaths (hs.log record) (fun v hv => ⟨hv.straight hs, hv.files⟩) hstart
    (fun rel _ => Policy.Alike.isStudentFile_ensures policy s project rel) hpaths
  generalize hmine : (fun rel => isFileNode (s.files.content d rel) && decide (policy.Takes s project rel)) = mine at hcreate
  have hiff : ∀ rel, mine rel = true ↔ IsTaken policy s project d rel := by
    intro rel
    rw [← hmine, Bool.and_eq_true, decide_eq_true_eq]
    exact Iff.rfl
  have hfound : ∀ rel, mine rel = true → rel ≠ [] ∧ isFileNode (s.files.content d rel) = true := by
    intro rel hrel
    refine ⟨?_, ((hiff rel).1 hrel).1⟩
    rintro rfl
    have hnode := ((hiff []).1 hrel).1
    unfold Files.content at hnode
    rw [List.append_nil, hs.directory] at hnode
    cases hnode
  have hcomprises := comprises_includedNames project hs.sound.files hfound hiff
  rw [includedPaths_eq hs.sound.files hfound] at hcreate
  generalize includedNames project mine s.files d = rels at hcomprises hcreate
  -- the entries are read while the draft is empty
  have hsame := (hu.log record').toSameStore
  obtain ⟨es, loc, v, hwrote, hes, place, executable, hplace, hfile⟩ := ok_of_overwriteAtomic
    (fun draft => Archive.looks_entries .zip draft.path project (topOf d) _)
    (fun loc target => by rw [hsame.find]; exact hlink loc target) hcreate
  have hentries := perform_entries_beside hs hsame hwrote hname
    (fun rel hrel => ((hcomprises.mem_iff rel).1 hrel).exists hs.sound.files fun _ htaken => htaken.1)
    fun rel hrel hloc => hdraft rel _ ((hcomprises.mem_iff rel).1 hrel) (by rw [hloc, ← hsame.find]; exact hwrote.before)
  rw [show (output.addSuffix ".tmp").written.path = output.addSuffix ".tmp" from rfl, hentries] at hes
  obtain rfl := Except.ok.inj hes
  exact ⟨name, rels, hname, hcomprises, place, executable, (hsame.find false output).symm.trans hplace, hfile⟩

/-- The archive of a project with one file at the top and one source in a directory of a directory. -/
theorem sampleTree_contents :
    let project : Path := ⟨.relative, ["p"]⟩
    let content := Policy.sampleTree.files.content ["w", "p"]
    ∃ t rels, (compress Policy.sampleAnt project ⟨.relative, ["o.zip"]⟩).perform Policy.sampleTree = (.ok (), t) ∧
      Comprises (IsTaken Policy.sampleAnt Policy.sampleTree project ["w", "p"]) content rels ∧
      (∀ rel ∈ [["build.xml"], ["src"], ["src", "gen"], ["src", "gen", "A"]], rel ∈ rels) ∧
      ∃ executable, t.files.get? ["w", "o.zip"] =
        some (.file (Archive.encode .zip (([] :: rels).map (entryIn "p" content))) executable) := by
  intro project content
  have hstraight : Policy.sampleTree.Straight project ["w", "p"] :=
    ⟨⟨Files.wellFormed_of_entries (by decide +kernel), rfl⟩,
      ⟨by decide, fun follow => by cases follow <;> decide +kernel⟩, by decide +kernel,
      fun _ _ => Files.get?_ne_link (by decide) _ _⟩
  have hfind : ∀ follow, Policy.sampleTree.find follow ⟨.relative, ["o.zip.tmp"]⟩ = .ok ⟨["w", "o.zip.tmp"], none⟩ :=
    fun follow => by cases follow <;> decide +kernel
  have houtput : Policy.sampleTree.find false ⟨.relative, ["o.zip"]⟩ = .ok ⟨["w", "o.zip"], none⟩ := by decide +kernel
  have hdraft : (⟨.relative, ["o.zip"]⟩ : Path).addSuffix ".tmp" = ⟨.relative, ["o.zip.tmp"]⟩ := by decide +kernel
  have hrun : ((compress Policy.sampleAnt project ⟨.relative, ["o.zip"]⟩).perform Policy.sampleTree).1 = .ok () := by
    decide +kernel
  obtain ⟨t, hrun⟩ := exists_perform_eq hrun
  obtain ⟨name, rels, hname, hcomprises, place, executable, hplace, hfile⟩ := compress_contents hstraight (by decide)
    (fun loc target hlink => by rw [hdraft, hfind] at hlink; cases hlink)
    (fun rel node _ hfound => by rw [hdraft, hfind] at hfound; simp at hfound) hrun
  cases hname
  cases houtput.symm.trans hplace
  have htaken : IsTaken Policy.sampleAnt Policy.sampleTree project ["w", "p"] ["src", "gen", "A"] := by decide +kernel
  refine ⟨t, rels, hrun, hcomprises, fun rel hrel => (hcomprises.mem_iff rel).2 ?_, executable, hfile⟩
  simp only [List.mem_cons, List.not_mem_nil, or_false] at hrel
  rcases hrel with rfl | rfl | rfl | rfl
  · exact .inl (by decide +kernel)
  · exact .inr (.inr ⟨by decide, _, htaken, by decide, by decide⟩)
  · exact .inr (.inr ⟨by decide, _, htaken, by decide, by decide⟩)
  · exact .inr (.inl htaken)

/-- A session in a directory `w` with a project `p`, in which the draft of an archive is a link to the archive. -/
def sampleDraft : Session where
  files := ⟨[(["w"], .directory), (["w", "p"], .directory), (["w", "p", "build.xml"], .file [] false),
    (["w", "o.zip.tmp"], .link "o.zip")]⟩
  workingDir := ["w"]
  scratch := ["t"]

/-- Compressing a project by way of a draft that is a link puts the link in the place of the archive. -/
theorem sampleDraft_lost :
    let o := (compress Policy.sampleAnt ⟨.relative, ["p"]⟩ ⟨.relative, ["o.zip"]⟩).perform sampleDraft
    sampleDraft.Straight ⟨.relative, ["p"]⟩ ["w", "p"] ∧
      sampleDraft.find false ⟨.relative, ["o.zip"]⟩ = .ok ⟨["w", "o.zip"], none⟩ ∧
      o.1 = .ok () ∧ o.2.files.get? ["w", "o.zip"] = some (.link "o.zip") := by
  refine ⟨⟨⟨Files.wellFormed_of_entries (by decide +kernel), rfl⟩,
    ⟨by decide, fun follow => by cases follow <;> decide +kernel⟩, by decide +kernel, fun rel target hlink => ?_⟩,
    by decide +kernel, by decide +kernel, by decide +kernel⟩
  unfold Files.get? at hlink
  rw [if_neg (by simp), List.lookup_eq_some_iff] at hlink
  obtain ⟨first, rest, hentries, -⟩ := hlink
  have hmem : (["w", "p"] ++ rel, Node.link target) ∈ sampleDraft.files.entries := by rw [hentries]; simp
  simp [sampleDraft] at hmem

end Submission

end Handout

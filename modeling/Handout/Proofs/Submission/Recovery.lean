import Handout.Proofs.Archive.Detection
import Handout.Proofs.Project.Recognition
import Handout.Proofs.Submission.Integrity

/-!
# A submitted project is found again

When the archive of a project is extracted, the project is searched for, and its ecosystem is found out again from what
was submitted.  This succeeds exactly if one of the marks of the ecosystem is submitted, and if what is submitted does
not make a project of the directory in which the project lies (`IsRecoverable`, `submission_found_again`).  With a mark
at its top a project can be found again, unless it is called like a directory in which there may be marks
(`isRecoverable_of_name`).
-/

namespace Handout

open Handout.Action Session

variable {s g t u : Session} {project output base : Path} {policy : Policy} {d k : Location} {e : Ecosystem} {c : Config}
  {rel : List String}

namespace Submission

/-! ### What arrives of a project -/

/-- No name that leads to something that is submitted is one of the names that are never extracted, and neither is the
name of the project. -/
def NoNoise (e : Ecosystem) (c : Config) (content : Content) (d : Location) : Prop :=
  ∀ rel, rel = [] ∨ IsSubmitted e c content rel → ∀ x ∈ d.getLast?.toList ++ rel, x ∉ Archive.noiseNames

/-- What of a project is submitted, as a tree. -/
def submittedContent (project : Path) (e : Ecosystem) (c : Config) (f : Files) (d : Location) : Content := fun rel =>
  if rel ∈ [] :: submittedNames project e c f d then f.content d rel else none

theorem submittedContent_of_submitted (hs : s.Sound) (h : rel = [] ∨ IsSubmitted e c (s.files.content d) rel) :
    submittedContent project e c s.files d rel = s.files.content d rel := by
  unfold submittedContent
  rw [if_pos (List.mem_cons.2 (h.imp_right (mem_submittedNames hs).2))]

theorem submitted_of_submittedContent (hs : s.Sound) (h : submittedContent project e c s.files d rel ≠ none) :
    (rel = [] ∨ IsSubmitted e c (s.files.content d) rel) ∧ s.files.get? (d ++ rel) ≠ none := by
  unfold submittedContent at h
  split at h
  · rename_i hmem
    exact ⟨(List.mem_cons.1 hmem).imp_right (mem_submittedNames hs).1, h⟩
  · exact absurd rfl h

theorem isTree_submittedContent (hs : s.Listed project d) (hquiet : NoNoise e c (s.files.content d) d) :
    Archive.IsTree (submittedContent project e c s.files d) := by
  refine ⟨?_, fun {names name} hn => ?_, fun hn => ?_, fun hn => ?_, fun names target hlink => ?_⟩
  · rw [submittedContent_of_submitted hs.sound (.inl rfl)]
    unfold Files.content
    rw [List.append_nil, hs.directory]
  · obtain ⟨hcases, hn⟩ := submitted_of_submittedContent hs.sound hn
    have hsubmitted := hcases.resolve_left (by simp)
    have hparent := hsubmitted.isIncluded.dropLast fun _ hstudent => hstudent.ne_nil
    rw [List.dropLast_concat] at hparent
    rw [submittedContent_of_submitted hs.sound hparent]
    rw [← List.append_assoc] at hn
    exact hs.sound.files.parent hn
  · exact hs.sound.files.proper_of_mem (submitted_of_submittedContent hs.sound hn).2 (by simp)
  · exact hquiet _ (submitted_of_submittedContent hs.sound hn).1 _ (by simp)
  · have hn : submittedContent project e c s.files d names ≠ none := by
      rw [hlink]
      exact Option.some_ne_none _
    rw [submittedContent_of_submitted hs.sound (submitted_of_submittedContent hs.sound hn).1] at hlink
    exact hs.noLink names target hlink

/-- What leads to something that is submitted is there. -/
private theorem content_ne_none (hs : s.Listed project d) (h : rel = [] ∨ IsSubmitted e c (s.files.content d) rel) :
    s.files.content d rel ≠ none := by
  rcases h with rfl | h
  · unfold Files.content
    rw [List.append_nil, hs.directory]
    exact Option.some_ne_none _
  · exact h.exists hs.sound.files

/-- A directory holds a tree that was extracted below some names, and nothing else. -/
structure Restored (u : Session) (base : Path) (k : Location) (tree : Content) (place : List String) : Prop extends
    u.Listed base k where
  content : u.files.content k = fun names => (Archive.planted place tree names).map Archive.extracted

/-- What is extracted into an empty directory leaves it in its place. -/
private theorem listed_within (ht : t.Listed base k) (hempty : ∀ names, names ≠ [] → t.files.get? (k ++ names) = none)
    (hu : Within t u k) : u.Listed base k := by
  refine ⟨hu.sound, ?_, hu.directory, hu.noLink, by rw [hu.locked]; exact ht.unlocked⟩
  refine ht.reaches.mono (by rw [hu.only]) (fun x hx => ?_) (by rw [ht.directory]; exact Option.some_ne_none _)
  by_cases hbelow : k <+: x
  · obtain ⟨names, rfl⟩ := hbelow
    by_cases hne : names = []
    · rw [hne, List.append_nil, hu.directory, ht.directory]
    · exact absurd (hempty names hne) hx
  · exact hu.outside x hbelow

/-- The archive of a project is extracted into a directory that is empty once it has been made. -/
theorem Submittable.extract {archive : Path} {l : Archive.Listing} (hs : Submittable s policy project d e c)
    (hquiet : NoNoise e c (s.files.content d) d)
    (hread : Archive.read? (Archive.encode .zip (submissionEntries project e c s.files d)) = .ok (some (.zip, l)))
    (hback : Archive.ReadsBack (submissionEntries project e c s.files d) l)
    (hmake : (Archive.makeDirectory base).perform g = (.ok (), t))
    (hdata : t.content? archive.written = .ok (Archive.encode .zip (submissionEntries project e c s.files d)))
    (ht : t.Listed base k) (hempty : ∀ names, names ≠ [] → t.files.get? (k ++ names) = none) :
    ∃ u, (Archive.extract archive base).perform g = (.ok (), u) ∧
      Restored u base k (submittedContent project e c s.files d) d.getLast?.toList := by
  have hsubmitted : ∀ rel ∈ Archive.withTop (topOf d) (submittedNames project e c s.files d),
      rel = [] ∨ IsSubmitted e c (s.files.content d) rel := fun rel hrel =>
    (List.mem_cons.1 (Archive.mem_of_mem_withTop hrel)).imp_right (mem_submittedNames hs.sound).1
  have htop : ∀ x ∈ Archive.topNames (topOf d), IsProper x ∧ x ∉ Archive.noiseNames := by
    intro x hx
    rw [topNames_topOf] at hx
    refine ⟨?_, hquiet [] (.inl rfl) x (List.mem_append_left _ hx)⟩
    exact proper_of_exists hs.sound (by rw [hs.directory]; exact Option.some_ne_none _)
      (List.mem_of_getLast? (Option.mem_toList.1 hx))
  have hpath : ∀ rel ∈ Archive.withTop (topOf d) (submittedNames project e c s.files d),
      Archive.memberPath archive (Archive.entryBelow .zip (topOf d) (s.files.content d) rel).name =
        .ok (if Archive.topNames (topOf d) ++ rel = [] then none else some ⟨.relative, Archive.topNames (topOf d) ++ rel⟩) := by
    intro rel hrel
    refine Archive.memberPath_entryName rfl ?_ archive .zip _
    rw [topNames_topOf]
    exact portable_of_entry hs.toListed hs.noBackslash (hsubmitted rel hrel)
  have hsame : ∀ rel ∈ Archive.withTop (topOf d) (submittedNames project e c s.files d),
      s.files.content d rel ≠ none ∧ submittedContent project e c s.files d rel = s.files.content d rel := fun rel hrel =>
    ⟨content_ne_none hs.toListed (hsubmitted rel hrel), submittedContent_of_submitted hs.sound (hsubmitted rel hrel)⟩
  have hstands := hback.stands archive hpath hsame
  obtain ⟨members, fault⟩ := l
  obtain rfl : fault = none := hback.1
  obtain ⟨u, hperform, hwithin, hcontent⟩ := Archive.extractListing_rebuilds
    ((isTree_submittedContent hs.toListed hquiet).planted htop) ht.sound ht.leads hempty hstands fun names hne hn =>
      Archive.covers_of_listed (fun rel hne hrel => (mem_submittedNames hs.sound).2
        ((submitted_of_submittedContent hs.sound hrel).1.resolve_left hne)) hne hn
  rw [topNames_topOf] at hcontent
  exact ⟨u, (Archive.perform_extract_made hmake hdata hread).trans hperform, listed_within ht hempty hwithin, hcontent⟩

/-! ### What is recognized -/

/-- A project can be found again from what is submitted of it: one of the marks of its ecosystem is submitted, and nothing
that is submitted is, behind the name of the project, a mark of some ecosystem. -/
def IsRecoverable (e : Ecosystem) (c : Config) (content : Content) (d : Location) : Prop :=
  (∃ rel, IsSubmitted e c content rel ∧ e.IsMark rel (content rel)) ∧
    ∀ name ∈ d.getLast?, ∀ (outer : Ecosystem) rel, IsSubmitted e c content rel → ¬ outer.IsMark (name :: rel) (content rel)

variable {other : Ecosystem}

private theorem isBorne_extracted {content : Content} :
    other.IsBorne (fun names => (content names).map Archive.extracted) ↔ other.IsBorne content := by
  have hfile : ∀ node : Option Node, isFileNode (node.map Archive.extracted) = isFileNode node := by
    rintro (_ | _ | _ | _) <;> rfl
  exact exists_congr fun rel => ⟨fun h => h.congr (hfile _) Option.map_eq_none_iff.2,
    fun h => h.congr (hfile _).symm Option.map_eq_none_iff.1⟩

/-- The marks that are borne by what is submitted. -/
private theorem isBorne_submittedContent (hs : s.Sound) : other.IsBorne (submittedContent project e c s.files d) ↔
    ∃ rel, IsSubmitted e c (s.files.content d) rel ∧ other.IsMark rel (s.files.content d rel) := by
  refine exists_congr fun rel => ⟨fun h => ?_, fun ⟨hrel, h⟩ => by rwa [submittedContent_of_submitted hs (.inr hrel)]⟩
  have hrel := (submitted_of_submittedContent hs h.exists).1
  rw [submittedContent_of_submitted hs hrel] at h
  exact ⟨hrel.resolve_left h.ne_nil, h⟩

/-- The marks that are borne by a directory that holds one with what is submitted. -/
private theorem isBorne_planted (hs : s.Listed project d) (name : String) :
    other.IsBorne (Archive.planted [name] (submittedContent project e c s.files d)) ↔
      ∃ rel, IsSubmitted e c (s.files.content d) rel ∧ other.IsMark (name :: rel) (s.files.content d rel) := by
  constructor
  · rintro ⟨names, h⟩
    obtain ⟨rel, rfl⟩ : ∃ rel, names = [name] ++ rel := by
      rcases Archive.cases_of_planted h.exists with ⟨rel, hrel, -⟩ | ⟨rest, hrest⟩
      · exact ⟨rel, hrel⟩
      · rcases List.append_eq_singleton_iff.1 hrest with ⟨rfl, -⟩ | ⟨rfl, -⟩
        · exact absurd rfl h.ne_nil
        · exact ⟨[], rfl⟩
    rw [Archive.planted_append] at h
    have hrel := (submitted_of_submittedContent hs.sound h.exists).1
    rw [submittedContent_of_submitted hs.sound hrel] at h
    refine ⟨rel, hrel.resolve_left ?_, h⟩
    rintro rfl
    -- the project itself is a directory, which is no mark
    rcases h.cases with ⟨-, hfile⟩ | ⟨-, first, -, rest, hrest, hnames⟩
    · unfold Files.content at hfile
      rw [List.append_nil, hs.directory] at hfile
      cases hfile
    · exact hrest (List.cons.inj hnames).2.symm
  · rintro ⟨rel, hrel, h⟩
    refine ⟨[name] ++ rel, ?_⟩
    rwa [Archive.planted_append, submittedContent_of_submitted hs.sound (.inr hrel)]

/-- The project is of the same ecosystem again if a mark of the ecosystem is submitted. -/
private theorem get_eq_iff (hs : Submittable s policy project d e c) {p : Path} {x : Location} (hu : u.Listed p x)
    (hcontent : u.files.content x = fun names => (submittedContent project e c s.files d names).map Archive.extracted) :
    (Ecosystem.get p).perform u = (.ok e, u) ↔
      ∃ rel, IsSubmitted e c (s.files.content d) rel ∧ e.IsMark rel (s.files.content d rel) := by
  have hborne : ∀ other : Ecosystem, other.IsBorne (u.files.content x) ↔
      ∃ rel, IsSubmitted e c (s.files.content d) rel ∧ other.IsMark rel (s.files.content d rel) := fun other => by
    rw [hcontent, isBorne_extracted, isBorne_submittedContent hs.sound]
  rw [← hborne]
  obtain ⟨-, before, after, hall, hbefore⟩ := (Ecosystem.find?_eq_some_iff hs.toListed).1 hs.recognized
  constructor
  · intro hget
    unfold Ecosystem.get at hget
    obtain ⟨found, v, hfind, hget⟩ := ok_of_perform_bind hget
    cases found with
    | none => cases hget
    | some found =>
      obtain rfl := Except.ok.inj (Prod.mk.inj hget).1
      exact ((Ecosystem.find?_eq_some_iff hu).1 (congrArg Prod.fst hfind)).1
  · intro he
    have hfound : ((Ecosystem.find? p).perform u).1 = .ok (some e) := by
      refine (Ecosystem.find?_eq_some_iff hu).2 ⟨he, before, after, hall, fun other hother hother' => hbefore other hother ?_⟩
      obtain ⟨rel, -, hmark⟩ := (hborne other).1 hother'
      exact ⟨rel, hmark⟩
    unfold Ecosystem.get
    rw [perform_bind_ok (Prod.ext hfound (Ecosystem.looks_find? p u))]
    rfl

/-- Where a project was extracted, it is found and is of the same ecosystem exactly if it can be found again. -/
theorem Restored.found_iff (hs : Submittable s policy project d e c)
    (hu : Restored u base k (submittedContent project e c s.files d) d.getLast?.toList) :
    (Archive.findProject? base).perform u = (.ok (some (base.append d.getLast?.toList)), u) ∧
        (Ecosystem.get (base.append d.getLast?.toList)).perform u = (.ok e, u) ↔
      IsRecoverable e c (s.files.content d) d := by
  have hcontent : u.files.content (k ++ d.getLast?.toList) = fun names =>
      (submittedContent project e c s.files d names).map Archive.extracted := by
    funext names
    have hbelow := congrFun hu.content (d.getLast?.toList ++ names)
    rw [Archive.planted_append] at hbelow
    rw [← hbelow]
    unfold Files.content
    rw [List.append_assoc]
  have hdir : u.files.get? (k ++ d.getLast?.toList) = some .directory := by
    have htop := congrFun hcontent []
    rw [submittedContent_of_submitted hs.sound (.inl rfl)] at htop
    unfold Files.content at htop
    rwa [List.append_nil, List.append_nil, hs.directory] at htop
  have halone : ∀ rel, u.files.get? (k ++ rel) = some .directory → d.getLast?.toList <+: rel ∨ rel <+: d.getLast?.toList := by
    intro rel hrel
    have hplanted : Archive.planted d.getLast?.toList (submittedContent project e c s.files d) rel ≠ none := by
      intro hnone
      have hnot := congrFun hu.content rel
      rw [hnone, show u.files.content k rel = _ from hrel] at hnot
      cases hnot
    rcases Archive.cases_of_planted hplanted with ⟨rest, rfl, -⟩ | hway
    · exact .inl (List.prefix_append _ _)
    · exact .inr hway
  rw [Archive.findProject?_eq_iff hu.toListed Option.length_toList_le hdir halone,
    get_eq_iff hs (hu.toListed.below hdir) hcontent]
  have houter : (d.getLast?.toList ≠ [] → ∀ other : Ecosystem, ¬ other.IsBorne (u.files.content k)) ↔
      ∀ name ∈ d.getLast?, ∀ (outer : Ecosystem) rel, IsSubmitted e c (s.files.content d) rel →
        ¬ outer.IsMark (name :: rel) (s.files.content d rel) := by
    rw [hu.content]
    cases d.getLast? with
    | none => simp
    | some name =>
      simp only [Option.toList_some, isBorne_extracted, isBorne_planted hs.toListed, not_exists, not_and]
      simp
  rw [houter]
  unfold IsRecoverable
  constructor
  · rintro ⟨⟨-, houter⟩, hmark⟩
    exact ⟨hmark, houter⟩
  · rintro ⟨hmark, houter⟩
    refine ⟨⟨⟨e, ?_⟩, houter⟩, hmark⟩
    rwa [hcontent, isBorne_extracted, isBorne_submittedContent hs.sound]

/-- A project with a mark at its top, as the projects of most ecosystems have one, can be found again, unless it is called
like a directory in which there may be marks. -/
theorem isRecoverable_of_name (hs : Submittable s policy project d e c)
    (htop : e ≠ .csharp ∧ e ≠ .python ∨ ∃ name, e.IsMark [name] (s.files.content d [name]))
    (hname : ∀ name ∈ d.getLast?, name ∉ ["src", "test", "tmc"]) : IsRecoverable e c (s.files.content d) d := by
  obtain ⟨rel, hlength, hmark⟩ : ∃ rel, rel.length = 1 ∧ e.IsMark rel (s.files.content d rel) := by
    rcases htop with hwhich | ⟨name, hmark⟩
    · obtain ⟨⟨rel, hmark⟩, -⟩ := (Ecosystem.find?_eq_some_iff hs.toListed).1 hs.recognized
      rcases hmark.cases with ⟨hlength, -⟩ | ⟨hother, -⟩
      · exact ⟨rel, hlength, hmark⟩
      · exact absurd hother (not_or.2 hwhich)
    · exact ⟨[name], rfl, hmark⟩
  constructor
  · rcases hmark.cases with ⟨-, hfile⟩ | ⟨-, first, -, rest, hrest, rfl⟩
    · exact ⟨rel, .inl ⟨hfile, hlength⟩, hmark⟩
    · exact absurd (List.length_eq_zero_iff.1 (Nat.succ.inj hlength)) hrest
  · intro name hlast outer rel hrel houter
    rcases houter.cases with ⟨hlength, -⟩ | ⟨-, first, hfirst, rest, -, hnames⟩
    · exact hrel.ne_nil (List.length_eq_zero_iff.1 (Nat.succ.inj hlength))
    · obtain rfl := (List.cons.inj hnames).1
      exact hname name hlast hfirst

/-! ### Extracting and receiving a submission -/

/-- A submission is received by extracting it into a new directory and finding the project there. -/
theorem Submittable.receive {request : Request} {l : Archive.Listing} (hs : Submittable s policy project d e c)
    (hquiet : NoNoise e c (s.files.content d) d)
    (hg : HandedIn g request.submission (submissionEntries project e c s.files d) l) (hready : g.Ready)
    (hunlocked : ∀ rel, Location.path (g.scratch ++ rel) ∉ g.locked) :
    ∃ u, Restored u (Location.path (g.scratch ++ ["received"])) (g.scratch ++ ["received"])
        (submittedContent project e c s.files d) d.getLast?.toList ∧
      (Submission.receive request).perform g = (do
        let received ← Archive.findProject request.submission (Location.path (g.scratch ++ ["received"]))
        let e ← Ecosystem.get received
        note .info .submissionPackaging s!"submission is a {e.name} project"
        return (received, e) : Action (Path × Ecosystem)).perform u := by
  have hproper : ∀ x ∈ ["received"], IsProper x := by decide
  unfold Submission.receive
  rw [perform_bind_ok (perform_note ..), perform_bind_ok (perform_get _), perform_bind_ok (perform_edit ..)]
  have hopened := hready.opened.log ⟨.info, .submissionPackaging, s!"preparing submission {request.submission.toString}"⟩
  generalize (⟨_, _, _⟩ : LogRecord) = record at hopened ⊢
  have hnone : ∀ names, names ≠ [] → (g.files.put g.scratch .directory).get? (g.scratch ++ names) = none := by
    intro names hne
    rw [Files.get?_put_of_ne hready.scratch_ne_nil (by simpa using hne)]
    exact hready.get?_scratch (List.prefix_append _ _)
  rcases perform_makeDirectories hopened (leadsTo_path hopened.sound hopened.directory) hproper with
    ⟨v, hmake, hmade⟩ | ⟨code, w, -, first, hfirst, hn, hdir⟩
  · have hlisted := ((listable_scratch hmade.within hunlocked).below hmade.directory).listed
    have hempty : ∀ names, names ≠ [] → v.files.get? (g.scratch ++ ["received"] ++ names) = none := by
      intro names hne
      rw [hmade.stored, if_neg, List.append_assoc]
      · exact hnone _ (by simp)
      · rintro ⟨-, hprefix⟩
        have hlength := hprefix.length_le
        have hpos := List.length_pos_iff.2 hne
        rw [List.length_append] at hlength
        omega
    have hdata := (hg.avoids.sameView hready hmade.within).content?
    rw [hg.content] at hdata
    have hmake : (makeDirectories (Location.path (g.scratch ++ ["received"]))).perform
        { g with files := g.files.put g.scratch .directory, log := g.log ++ [record] } = (.ok (), v) := hmake
    have hdirectory : (Archive.makeDirectory (Location.path (g.scratch ++ ["received"]))).perform
        { g with files := g.files.put g.scratch .directory, log := g.log ++ [record] } = (.ok (), v) := by
      unfold Archive.makeDirectory
      rw [perform_during, hmake]
    obtain ⟨u, hextract, hrestored⟩ := hs.extract hquiet hg.read hg.back hdirectory hdata.symm hlisted hempty
    exact ⟨u, hrestored, perform_bind_ok hextract _⟩
  · -- nothing is in the way of the new directory
    by_cases hnil : first = []
    · rw [hnil] at hdir
      refine absurd ?_ hdir
      unfold Files.content
      rw [List.append_nil]
      exact hopened.directory
    · exact absurd (hnone first hnil) hn

/-- A project is compressed.  When the archive is extracted into an empty directory, the project is found there and is of
the same ecosystem exactly if it can be found again, and so it is when the archive is received for packaging.  A project
with a mark at its top can be found again, unless it is called like a directory in which there may be marks. -/
theorem submission_found_again (hs : Submittable s policy project d e c) (hquiet : NoNoise e c (s.files.content d) d)
    (hfree : s.node? false (output.addSuffix ".tmp") = none)
    (hcompress : (compress policy project output).perform s = (.ok (), t)) :
    let es := submissionEntries project e c s.files d
    ReplacedBy s output (Archive.encode .zip es) t.files ∧
    (∀ g archive base k l, g.content? archive.written = .ok (Archive.encode .zip es) →
      Archive.read? (Archive.encode .zip es) = .ok (some (.zip, l)) → Archive.ReadsBack es l → g.Listed base k →
      (∀ names, names ≠ [] → g.files.get? (k ++ names) = none) →
      ∃ u, (Archive.extract archive base).perform g = (.ok (), u) ∧
        ((Archive.findProject? base).perform u = (.ok (some (base.append d.getLast?.toList)), u) ∧
            (Ecosystem.get (base.append d.getLast?.toList)).perform u = (.ok e, u) ↔
          IsRecoverable e c (s.files.content d) d)) ∧
    (∀ g request l, HandedIn g request.submission es l → g.Ready → (∀ rel, Location.path (g.scratch ++ rel) ∉ g.locked) →
      ((∃ u, (receive request).perform g = (.ok (Location.path (g.scratch ++ "received" :: d.getLast?.toList), e), u)) ↔
        IsRecoverable e c (s.files.content d) d)) ∧
    ((e ≠ .csharp ∧ e ≠ .python ∨ ∃ name, e.IsMark [name] (s.files.content d [name])) →
      (∀ name ∈ d.getLast?, name ∉ ["src", "test", "tmc"]) → IsRecoverable e c (s.files.content d) d) := by
  intro es
  refine ⟨compress_written hs.toListed hs.kind hs.policyConfig hs.inside hfree hcompress, ?_, ?_, ?_⟩
  · intro g archive base k l hdata hread hback hbase hempty
    obtain ⟨u, hextract, hrestored⟩ := hs.extract hquiet hread hback (Archive.perform_makeTarget hbase.sound hbase.leads)
      hdata hbase hempty
    exact ⟨u, hextract, hrestored.found_iff hs⟩
  · intro g request l hg hready hunlocked
    obtain ⟨u, hrestored, hreceive⟩ := hs.receive hquiet hg hready hunlocked
    have hroot : (Location.path (g.scratch ++ ["received"])).append d.getLast?.toList =
        Location.path (g.scratch ++ "received" :: d.getLast?.toList) := by
      unfold Location.path Path.append
      rw [List.append_assoc]
      rfl
    rw [← hrestored.found_iff hs, hreceive, hroot]
    constructor
    · rintro ⟨v, hv⟩
      obtain ⟨root, w, hfind, hrest⟩ := ok_of_perform_bind hv
      obtain ⟨found, w', hfound, hresult⟩ := ok_of_perform_bind hfind
      obtain rfl : w' = u := (Prod.mk.inj ((Archive.perform_findProject? hrestored.toListed).symm.trans hfound)).2.symm
      cases found with
      | none => cases hresult
      | some found =>
        cases hresult
        obtain ⟨e', x, hget, hnote⟩ := ok_of_perform_bind hrest
        obtain ⟨⟨rfl, rfl⟩, -⟩ := Prod.mk.inj hnote
        have hx : x = w := by
          have hlook := Ecosystem.looks_get (Location.path (g.scratch ++ "received" :: d.getLast?.toList)) w
          rwa [hget] at hlook
        subst hx
        exact ⟨hfound, hget⟩
    · rintro ⟨hfind, hget⟩
      exact ⟨_, (perform_bind_ok (perform_bind_ok hfind _) _).trans ((perform_bind_ok hget _).trans rfl)⟩
  · exact isRecoverable_of_name hs

/-! ### Samples -/

/-- A session in a directory `w` that holds a project with some directories and some empty files, and an empty directory
`t`. -/
def sampleProject (name : String) (dirs files : List (List String)) : Session where
  files := ⟨[(["w"], .directory), (["w", "t"], .directory), (["w", name], .directory)] ++
    (dirs.map fun rel => ("w" :: name :: rel, .directory)) ++ files.map fun rel => ("w" :: name :: rel, .file [] false)⟩
  workingDir := ["w"]
  scratch := ["s"]

/-- A submission `o.zip` is packaged. -/
def samplePackaging : Request :=
  { submission := ⟨.relative, ["o.zip"]⟩, output := ⟨.relative, ["o"]⟩, clone := ⟨.relative, ["c"]⟩, asZip := true }

instance {α : Type} (r : Except Failure α) (archive : Path) : Decidable (r = .error (.noProjectRoot archive)) :=
  decidable_of_bool (match r with | .error (.noProjectRoot other) => decide (other = archive) | _ => false) (by
    split
    · simp
    · rename_i hother
      exact ⟨nofun, fun h => absurd h (hother archive)⟩)

/-- A project without links, of some ecosystem and with names that archives keep, is compressed and extracted.  Then what
is found is no project of the same ecosystem, and if nothing is found, the submission is rejected when it is packaged. -/
def IsLost (s : Session) (name : String) (e : Ecosystem) (found : Option Path) : Prop :=
  let project : Path := ⟨.relative, [name]⟩
  let policy : Policy := ⟨.ecosystem e, project, 0⟩
  let t := ((compress policy project samplePackaging.submission).perform s).2
  let u := ((Archive.extract samplePackaging.submission ⟨.relative, ["t"]⟩).perform t).2
  (s.files.links = 0 ∧ (∀ entry ∈ s.files.entries, ∀ x ∈ entry.1, Archive.IsKept x) ∧
      ((Ecosystem.find? project).perform s).1 = .ok (some e) ∧ ((Config.load project).perform s).1 = .ok {}) ∧
    ((compress policy project samplePackaging.submission).perform s).1 = .ok () ∧
    ((Archive.extract samplePackaging.submission ⟨.relative, ["t"]⟩).perform t).1 = .ok () ∧
    ((Archive.findProject? ⟨.relative, ["t"]⟩).perform u).1 = .ok found ∧
    (∀ root ∈ found, ((Ecosystem.get root).perform u).1 ≠ .ok e) ∧
    (found = none → ((receive samplePackaging).perform t).1 = .error (.noProjectRoot samplePackaging.submission))

/-- A Python project with its only mark among the tests, and a C# project with its project file among the compiled files,
are not found again.  A project called `src` with a C# project file at its top makes a C# project of the directory around
it. -/
theorem sampleProject_lost :
    IsLost (sampleProject "p" [["src"], ["test"]] [["src", "a.py"], ["test", "__init__.py"]]) "p" .python none ∧
    IsLost (sampleProject "p" [["src"], ["src", "bin"]] [["src", "bin", "a.csproj"]]) "p" .csharp none ∧
    IsLost (sampleProject "src" [] [["Makefile"], ["a.csproj"]]) "src" .make (some ⟨.relative, ["t"]⟩) := by
  refine ⟨?_, ?_, ?_⟩ <;> unfold IsLost <;> dsimp only <;> decide +kernel

/-- A C# project with its project file among the sources is found again. -/
theorem sampleProject_found :
    let s := sampleProject "p" [["src"]] [["src", "a.csproj"]]
    let project : Path := ⟨.relative, ["p"]⟩
    let g := ((compress ⟨.ecosystem .csharp, project, 0⟩ project samplePackaging.submission).perform s).2
    ReplacedBy s samplePackaging.submission (Archive.encode .zip (submissionEntries project .csharp {} s.files ["w", "p"]))
        g.files ∧
      (∃ u, (Archive.extract samplePackaging.submission ⟨.relative, ["t"]⟩).perform g = (.ok (), u) ∧
        (Archive.findProject? ⟨.relative, ["t"]⟩).perform u = (.ok (some ⟨.relative, ["t", "p"]⟩), u) ∧
        (Ecosystem.get ⟨.relative, ["t", "p"]⟩).perform u = (.ok .csharp, u)) ∧
      ∃ u, (receive samplePackaging).perform g = (.ok (Location.path ["s", "received", "p"], .csharp), u) := by
  intro s project g
  -- what is asked of the fixed session is computed; the rest follows from the general statement
  obtain ⟨hown, hunlinked⟩ : s.Unlinked ∧ g.Unlinked := by decide +kernel
  have hlisted : s.Listed project ["w", "p"] := by
    refine ⟨hown.ready.sound, ⟨by decide +kernel, fun follow => ?_⟩, by decide +kernel, fun rel => hown.ne_link _,
      fun rel => List.not_mem_nil⟩
    cases follow <;> decide +kernel
  have hkept : ∀ rel, rel = [] ∨ IsSubmitted .csharp {} (s.files.content ["w", "p"]) rel → ∀ x ∈ "p" :: rel, Archive.IsKept x := by
    have hlisting : ∀ rel ∈ [] :: s.files.listing ["w", "p"], ∀ x ∈ "p" :: rel, Archive.IsKept x := by decide +kernel
    refine fun rel hrel => hlisting rel (List.mem_cons.2 (hrel.imp_right fun hrel => ?_))
    exact (Files.mem_listing hlisted.sound.files).2 ⟨hrel.ne_nil, hrel.exists hlisted.sound.files⟩
  have hsubmittable : Submittable s ⟨.ecosystem .csharp, project, 0⟩ project ["w", "p"] .csharp {} :=
    ⟨hlisted, rfl, by decide +kernel, rfl, by decide +kernel, fun rel hrel x hx => (hkept rel hrel x hx).1⟩
  have hrecoverable : IsRecoverable .csharp {} (s.files.content ["w", "p"]) ["w", "p"] := by
    refine ⟨⟨["src", "a.csproj"], .inr (.inl (by decide +kernel)), by decide +kernel, [], "a.csproj", by decide, by decide, rfl⟩, ?_⟩
    rintro name hname outer rel hrel hmark
    obtain rfl : "p" = name := Option.some.inj hname
    rcases hmark.cases with ⟨hlength, -⟩ | ⟨-, first, hfirst, rest, -, hnames⟩
    · exact hrel.ne_nil (List.length_eq_zero_iff.1 (Nat.succ.inj hlength))
    · obtain rfl := (List.cons.inj hnames).1
      exact absurd hfirst (by decide)
  have hsent : ((compress ⟨.ecosystem .csharp, project, 0⟩ project samplePackaging.submission).perform s).1 = .ok () := by
    decide +kernel
  have hcompress : (compress ⟨.ecosystem .csharp, project, 0⟩ project samplePackaging.submission).perform s = (.ok (), g) :=
    perform_eq_of_fst hsent
  obtain ⟨hwritten, hextract, hreceive, -⟩ := submission_found_again hsubmittable
    (fun rel hrel x hx => (hkept rel hrel x hx).2) (by decide +kernel) hcompress
  have hhanded : HandedIn g samplePackaging.submission (submissionEntries project .csharp {} s.files ["w", "p"])
      ⟨(submissionEntries project .csharp {} s.files ["w", "p"]).map fun e =>
        { e.member with executable := e.node = .directory, method := some (Archive.Zip.methodOf e.node) }, none⟩ :=
    ⟨by decide +kernel, by decide +kernel, by decide +kernel, hunlinked.avoids rfl (by decide)⟩
  have htarget : g.Listed ⟨.relative, ["t"]⟩ ["w", "t"] := by
    refine ⟨hunlinked.ready.sound, ⟨by decide +kernel, fun follow => ?_⟩, by decide +kernel, fun rel => hunlinked.ne_link _,
      fun rel => ?_⟩
    · cases follow <;> decide +kernel
    · rw [hunlinked.locked]
      exact List.not_mem_nil
  have hbare : g.files.listing ["w", "t"] = [] := by decide +kernel
  have hscratch : g.scratch = ["s"] := by decide +kernel
  clear_value g
  have hempty : ∀ names, names ≠ [] → g.files.get? (["w", "t"] ++ names) = none := by
    intro names hne
    by_contra hn
    have hlisting := (Files.mem_listing hunlinked.ready.sound.files).2 ⟨hne, hn⟩
    rw [hbare] at hlisting
    cases hlisting
  have hunlocked : ∀ rel, Location.path (g.scratch ++ rel) ∉ g.locked := by
    rw [hunlinked.locked]
    exact fun _ => List.not_mem_nil
  obtain ⟨u, hperform, hfound⟩ := hextract g samplePackaging.submission _ _ _ hhanded.content hhanded.read hhanded.back
    htarget hempty
  have hreceived := (hreceive g samplePackaging _ hhanded hunlinked.ready hunlocked).2 hrecoverable
  rw [hscratch] at hreceived
  exact ⟨hwritten, ⟨u, hperform, hfound.2 hrecoverable⟩, hreceived⟩

end Submission

end Handout

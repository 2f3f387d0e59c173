import Mathlib.Data.List.Pairwise
import Handout.Proofs.Exercise.Extent
import Handout.Proofs.Exercise.Vacant
import Handout.Proofs.Files.Depth

/-!
# The order of the files of an exercise

A walk comes to the files of a directory before it goes into the subdirectories (`Sooner`).  So the files are in the
order of their paths only as long as no file stands behind a subdirectory next to it (`pairwise_lt_iff`).  Deriving
reports the malformed file to which the walk comes soonest, which need not be the one with the smallest path
(`sampleSequence_not_sorted`).
-/

namespace Handout.Exercise

open Handout.Action Session

variable {keep : SpanFilter} {s before : Session} {p source target f g : Path} {d place : Location}
  {rel rel' init dirs : List String} {rels : List (List String)} {name c : String} {levels : Nat} {done : List Path} {fault : TagFault}

/-! ### The order of a walk -/

/-- The way to one file comes before the way to another one: in every directory the files come first, then its
subdirectories one after the other. -/
inductive Sooner : List String → List String → Prop
  | files {name name' : String} : name < name' → Sooner [name] [name']
  | file {name c : String} {rel : List String} : rel ≠ [] → Sooner [name] (c :: rel)
  | directories {c c' : String} {rel rel' : List String} : c < c' → rel ≠ [] → rel' ≠ [] → Sooner (c :: rel) (c' :: rel')
  | within {c : String} {rel rel' : List String} : Sooner rel rel' → Sooner (c :: rel) (c :: rel')

private theorem Sooner.ne_nil (h : Sooner rel rel') : rel ≠ [] ∧ rel' ≠ [] := by
  cases h <;> exact ⟨List.cons_ne_nil _ _, List.cons_ne_nil _ _⟩

private theorem Sooner.append (h : Sooner rel rel') (dirs : List String) : Sooner (dirs ++ rel) (dirs ++ rel') := by
  induction dirs with
  | nil => exact h
  | cons c dirs ih => exact .within ih

private theorem Sooner.of_cons (h : Sooner (c :: rel) (c :: rel')) (hrel : rel ≠ []) : Sooner rel rel' := by
  cases h with
  | files => exact absurd rfl hrel
  | file => exact absurd rfl hrel
  | directories hlt => exact absurd hlt (String.lt_irrefl _)
  | within h => exact h

/-- What lies in a subdirectory does not come before a file of the directory. -/
private theorem not_sooner_file (hrel : rel ≠ []) : ¬ Sooner (dirs ++ c :: rel) (dirs ++ [name]) := by
  intro h
  induction dirs with
  | nil =>
    cases h with
    | files => exact hrel rfl
    | file hnil => exact hnil rfl
    | directories _ _ hnil => exact hnil rfl
    | within h => exact h.ne_nil.2 rfl
  | cons x dirs ih => exact ih (h.of_cons (by simp))

private theorem lt_or_eq_of_le (h : name ≤ c) : name < c ∨ name = c := by
  by_cases hlt : name < c
  · exact .inl hlt
  · exact .inr (String.le_antisymm h (String.not_lt.1 hlt))

/-- The order of a walk is the one of the paths but for a file and what lies in a subdirectory next to it. -/
private theorem Sooner.cases_lt (h : Sooner rel rel') : rel < rel' ∨
    ∃ dirs name c rest, rest ≠ [] ∧ rel = dirs ++ [name] ∧ rel' = dirs ++ c :: rest ∧ ¬ name ≤ c := by
  induction h with
  | files hlt => exact .inl (List.cons_lt_cons_iff.2 (.inl hlt))
  | @file name c rel hrel =>
    by_cases hle : name ≤ c
    · obtain ⟨x, rest, rfl⟩ := List.exists_cons_of_ne_nil hrel
      have hnil : [] < x :: rest := List.nil_lt_cons x rest
      exact .inl (List.cons_lt_cons_iff.2 ((lt_or_eq_of_le hle).imp_right fun he => ⟨he, hnil⟩))
    · exact .inr ⟨[], name, c, rel, hrel, rfl, rfl, hle⟩
  | directories hlt => exact .inl (List.cons_lt_cons_iff.2 (.inl hlt))
  | @within c rel rel' _ ih =>
    rcases ih with hlt | ⟨dirs, name, c', rest, hrest, rfl, rfl, hle⟩
    · exact .inl (List.cons_lt_cons_iff.2 (.inr ⟨rfl, hlt⟩))
    · exact .inr ⟨c :: dirs, name, c', rest, hrest, rfl, rfl, hle⟩

private theorem le_of_append_lt (h : dirs ++ [name] < dirs ++ c :: rel) : name ≤ c := by
  induction dirs with
  | nil =>
    rcases List.cons_lt_cons_iff.1 h with hlt | ⟨rfl, -⟩
    · exact String.not_lt.1 (String.lt_asymm hlt)
    · exact String.le_refl name
  | cons x dirs ih => exact ih ((List.cons_lt_cons_iff.1 h).resolve_left (String.lt_irrefl x)).2

private theorem rel_or_rel {α : Type} {R : α → α → Prop} {l : List α} {a b : α} (h : l.Pairwise R) (ha : a ∈ l)
    (hb : b ∈ l) (hne : a ≠ b) : R a b ∨ R b a := by
  have : Std.Symm fun a b => R a b ∨ R b a := ⟨fun _ _ => Or.symm⟩
  exact (h.imp Or.inl : l.Pairwise fun a b => R a b ∨ R b a).forall ha hb hne

/-- In the order of a walk the paths increase if no file stands behind a subdirectory next to it. -/
theorem pairwise_lt_iff (h : rels.Pairwise Sooner) : rels.Pairwise (· < ·) ↔
    ∀ dirs name c rest, rest ≠ [] → dirs ++ [name] ∈ rels → dirs ++ c :: rest ∈ rels → name ≤ c := by
  constructor
  · intro hlt dirs name c rest hrest hfile hbelow
    have hne : dirs ++ [name] ≠ dirs ++ c :: rest := fun he => hrest (List.cons.inj (List.append_cancel_left he)).2.symm
    -- of the two the file comes sooner, so that it is the smaller one
    rcases rel_or_rel (h.and hlt) hfile hbelow hne with ⟨-, hlt⟩ | ⟨hsooner, -⟩
    · exact le_of_append_lt hlt
    · exact absurd hsooner (not_sooner_file hrest)
  · intro hle
    refine h.imp_of_mem fun {rel rel'} hrel hrel' hsooner => hsooner.cases_lt.resolve_right ?_
    rintro ⟨dirs, name, c, rest, hrest, rfl, rfl, hnot⟩
    exact hnot (hle dirs name c rest hrest hrel hrel')

/-! ### What a walk visits -/

/-- The names of a directory are visited in their order. -/
theorem pairwise_sortedNames : (sortedNames s p).Pairwise (· < ·) := by
  unfold sortedNames
  split
  · rename_i names hnames
    obtain ⟨loc, -, rfl⟩ := names?_eq_ok hnames
    exact pairwise_sortNames Files.nodup_names
  · exact List.Pairwise.nil

/-- A walk comes to one file before it comes to another one. -/
private def Precedes (p f g : Path) : Prop :=
  ∃ rel rel', f = p.append rel ∧ g = p.append rel' ∧ Sooner rel rel'

private theorem pairwise_visited (s : Session) (levels : Nat) (p : Path) :
    (visited s levels p).Pairwise (Precedes p) := by
  induction levels generalizing p with
  | zero => exact List.Pairwise.nil
  | succ levels ih =>
    have htaken : (takenNames s p).Pairwise (· < ·) := pairwise_sortedNames.filter _
    have hopen : (openNames s p).Pairwise (· < ·) := (pairwise_sortedNames.filter _).filter _
    refine List.pairwise_append.2 ⟨?_, List.pairwise_flatMap.2 ⟨fun c _ => ?_, ?_⟩, ?_⟩
    · refine List.pairwise_map.2 (htaken.imp fun {name name'} hlt => ?_)
      exact ⟨[name], [name'], rfl, rfl, .files hlt⟩
    · split
      · exact List.Pairwise.nil
      · refine (ih (p.child c)).imp fun {f g} h => ?_
        obtain ⟨rel, rel', rfl, rfl, hsooner⟩ := h
        exact ⟨c :: rel, c :: rel', Path.append_append p [c] rel, Path.append_append p [c] rel', .within hsooner⟩
    · refine hopen.imp fun {c c'} hlt f hf g hg => ?_
      obtain ⟨rel, hrel, rfl⟩ := exists_of_mem_below hf
      obtain ⟨rel', hrel', rfl⟩ := exists_of_mem_below hg
      exact ⟨c :: rel, c' :: rel', rfl, rfl, .directories hlt hrel hrel'⟩
    · intro f hf g hg
      obtain ⟨name, -, rfl⟩ := List.mem_map.1 hf
      obtain ⟨c, -, hg⟩ := List.mem_flatMap.1 hg
      obtain ⟨rel, hrel, rfl⟩ := exists_of_mem_below hg
      exact ⟨[name], c :: rel, rfl, rfl, .file hrel⟩

/-- The ways to what is visited are in the order of a walk. -/
theorem visited_eq_map (s : Session) (levels : Nat) (p : Path) :
    ∃ rels : List (List String), visited s levels p = rels.map p.append ∧ rels.Pairwise Sooner := by
  have hway : ∀ rel, (p.append rel).parts.drop p.parts.length = rel := fun rel => List.drop_left
  refine ⟨(visited s levels p).map fun f => f.parts.drop p.parts.length, ?_, ?_⟩
  · rw [List.map_map, eq_comm]
    refine (List.map_congr_left fun f hf => ?_).trans (List.map_id _)
    obtain ⟨rel, rfl, -⟩ := mem_visited_iff.1 hf
    exact congrArg p.append (hway rel)
  · refine List.pairwise_map.2 ((pairwise_visited s levels p).imp fun {f g} h => ?_)
    obtain ⟨rel, rel', rfl, rfl, hsooner⟩ := h
    rwa [hway, hway]

/-! ### What is reported -/

theorem Faulty.not_yields {out : Option Bytes} (h : Faulty s f fault) : ¬ Yields keep s f out := by
  rintro ⟨data, hdata, hfault, -⟩
  obtain ⟨htext, data', hdata', hfault'⟩ := h
  obtain rfl := Except.ok.inj (hdata.symm.trans hdata')
  cases (hfault htext).symm.trans hfault'

/-- A file that can be read gives something or has a broken tag. -/
theorem yields_or_faulty (keep : SpanFilter) {data : Bytes} (h : s.content? f.written = .ok data) :
    (∃ out, Yields keep s f out) ∨ ∃ fault, Faulty s f fault := by
  by_cases hfault : isBinary f = false → (parseTags f.extension data).fault = none
  · exact .inl ⟨_, data, h, hfault, rfl⟩
  · rw [Classical.not_imp] at hfault
    obtain ⟨fault, hfault'⟩ := Option.ne_none_iff_exists'.1 hfault.2
    exact .inr ⟨fault, hfault.1, data, h, hfault'⟩

theorem perform_mirrorFile_of_faulty (keep : SpanFilter) (h : Faulty s f fault) (g : Path) :
    (mirrorFile keep f g).perform s = (.error (.tags fault (some f)), s) := by
  obtain ⟨htext, data, hdata, hfault⟩ := h
  unfold mirrorFile parseFile readFile
  rw [htext, if_neg Bool.false_ne_true, perform_bind, perform_bind, perform_during, perform_query, hdata]
  simp only [hfault]
  rfl

/-- Into an empty directory a file that can be read is mirrored, or its first broken tag is reported. -/
private theorem reportsTurns {E : List Path → Path → Failure → Session → Prop} {visit : Path → Path → Action Unit}
    (hsucceeds : SucceedsInTurns keep before source target target place [] visit) (hv : Vacant before target place)
    (hdoes : DoesTurns keep before source target target place [] E visit)
    (hstops : ∀ s f fault, Faulty s f fault → ∀ g, (visit f g).perform s = (.error (.tags fault (some f)), s)) :
    DoesTurns keep before source target target place []
      (fun _ f e _ => (∃ data, before.content? f.written = .ok data) → ∃ fault, e = .tags fault (some f)) visit := by
  refine ⟨?_⟩
  intro done f g init c s hturn
  have hmirror := (hsucceeds.doesTurns (staysClear_of_vacant hv) hdoes).ensures done f g init c s hturn
  by_cases hread : ∃ data, before.content? f.written = .ok data
  · obtain ⟨data, hdata⟩ := hread
    rcases yields_or_faulty keep hdata with ⟨out, hy⟩ | ⟨fault, hfaulty⟩
    · exact hmirror.mono (fun _ ht => ht) (fun _ _ ht => ht) fun _ _ hnot => absurd hy (hnot out)
    · have hnow : Faulty s f fault := by
        obtain ⟨htext, hfault⟩ := hfaulty
        rw [← hturn.content? hturn.grown] at hfault
        exact ⟨htext, hfault⟩
      rintro t rfl
      rw [hstops t f fault hnow g]
      exact fun _ => ⟨fault, rfl⟩
  · exact hmirror.mono (fun _ ht => ht) (fun _ _ ht => ht) fun _ _ _ hread' => absurd hread' hread

/-- The outcome of deriving the solution or a stub of an exercise. -/
inductive Prepared (s : Session) (p target : Path) : Except Failure Unit → Prop
  | solution : Prepared s p target ((prepareSolution [p] target).perform s).1
  | stub (keepHidden : Bool) : Prepared s p target ((prepareStub p target keepHidden).perform s).1

theorem Prepared.exists_process {r : Except Failure Unit} (h : Prepared s p target r) :
    ∃ keep t, (process keep p target).perform s = (r, t) := by
  cases h with
  | solution =>
    refine ⟨SpanFilter.solution, ((process SpanFilter.solution p target).perform s).2, ?_⟩
    have hrun : (prepareSolution [p] target).perform s =
        (process SpanFilter.solution p target >>= fun _ => pure ()).perform s := rfl
    rw [hrun, perform_bind]
    rcases (process SpanFilter.solution p target).perform s with ⟨_ | _, t⟩ <;> rfl
  | stub keepHidden => exact ⟨_, _, rfl⟩

/-- A run over an exercise goes by the malformed file to which a walk comes soonest. -/
structure GoesBySoonest (s : Session) (p : Path) (rels : List (List String)) (r : Except Failure Unit) : Prop where
  sound : r = .ok () → ∀ rel ∈ rels, ∀ fault, ¬ Faulty s (p.append rel) fault
  soonest : ∀ fault path, r = .error (.tags fault path) → ∃ rel ∈ rels,
    path = some (p.append rel) ∧ Faulty s (p.append rel) fault ∧
      ∀ rel' ∈ rels, ∀ fault', Faulty s (p.append rel') fault' → rel' = rel ∨ Sooner rel rel'

/-- Deriving goes by the malformed file to which the walk comes soonest. -/
private theorem Prepared.goesBySoonest {known : Path} {e : Location} {names : List String} {r : Except Failure Unit}
    (h : Prepared s p target r) (hs : s.Sound) (hq : Destination s target known e names)
    (hp : Undisturbed s p (e ++ names.take 1)) (hrels : rels.Pairwise Sooner)
    (hfiles : ((files p).perform s).1 = .ok (rels.map p.append)) : GoesBySoonest s p rels r := by
  obtain ⟨keep, t, hrun⟩ := h.exists_process
  obtain ⟨hok, herror⟩ := process_mirrors hs hq hp hrun
  constructor
  · intro hr rel hrel fault hfaulty
    obtain ⟨found, hfound, hmirrored⟩ := hok hr
    obtain rfl := Except.ok.inj (hfound.symm.trans hfiles)
    obtain ⟨-, out, -, hy⟩ := hmirrored.yields _ (List.mem_map_of_mem hrel)
    exact hfaulty.not_yields hy
  · intro fault path hr
    obtain ⟨done, f, rest, hfound, rfl, hfaulty, hmirrored⟩ := herror fault path hr
    obtain ⟨sooner, later, rfl, rfl, hlater⟩ := List.map_eq_append_iff.1 (Except.ok.inj (hfiles.symm.trans hfound))
    obtain ⟨rel, later, rfl, rfl, rfl⟩ := List.map_eq_cons_iff.1 hlater
    refine ⟨rel, by simp, rfl, hfaulty, fun rel' hrel' fault' hfaulty' => ?_⟩
    rcases List.mem_append.1 hrel' with hsooner | hlater
    · obtain ⟨-, out, -, hy⟩ := hmirrored.yields _ (List.mem_map_of_mem hsooner)
      exact absurd hy hfaulty'.not_yields
    · rcases List.mem_cons.1 hlater with rfl | hlater
      · exact .inl rfl
      · exact .inr ((List.pairwise_cons.1 (List.pairwise_append.1 hrels).2.1).1 rel' hlater)

/-- If all files can be read, deriving into an empty directory fails only with a broken tag. -/
private theorem Prepared.ok_or_tags {r : Except Failure Unit} (h : Prepared s p target r) (hs : s.Sound)
    (hv : Vacant s target place) (hp : Undisturbed s p place) (hz : p.hasZero = false)
    (hread : ∀ f ∈ visited s (s.files.height + 1) p, ∃ data, s.content? f.written = .ok data) :
    r = .ok () ∨ ∃ fault path, r = .error (.tags fault path) := by
  obtain ⟨keep, t, hrun⟩ := h.exists_process
  obtain ⟨log, hwalk⟩ := perform_process keep p target s
  rw [hwalk] at hrun
  rw [← visited_eq hs (show s.files.height < nesting s.files target by unfold nesting; omega) p] at hread
  have hturns : DoesTurns keep s p target target place [] _ (mirrorFile keep) :=
    reportsTurns mirrorFile_succeedsInTurns hv mirrorFile_doesTurns fun s f fault => perform_mirrorFile_of_faulty keep
  have hends := (walk_ensures hs (hv.destination hs) (by rwa [List.take_nil, List.append_nil]) hz hturns
    (nesting s.files target)).ends ((Mirrored.start hs).log log) hrun
  cases r with
  | ok => exact .inl rfl
  | error e =>
    obtain ⟨done, f, rest, hsplit, htags⟩ := hends
    obtain ⟨fault, rfl⟩ := htags (hread f (by rw [hsplit]; simp))
    exact .inr ⟨fault, _, rfl⟩

/-- The files of an exercise that can be read are enumerated in the order of a walk.  This is the order of their
paths if and only if no file stands behind a subdirectory next to it.  Of several malformed files deriving reports
the one that comes first in the order of the walk. -/
theorem files_sooner (h : Readable s p d) : ∃ rels, ((files p).perform s).1 = .ok (rels.map p.append) ∧
    (∀ dirs name, dirs ++ [name] ∈ rels ↔ Processed s p d dirs name) ∧ rels.Pairwise Sooner ∧
    (rels.Pairwise (· < ·) ↔
      ∀ dirs name c rest, rest ≠ [] → dirs ++ [name] ∈ rels → dirs ++ c :: rest ∈ rels → name ≤ c) ∧
    ∀ target r, Prepared s p target r →
      (∀ known e names, Destination s target known e names → Undisturbed s p (e ++ names.take 1) →
        GoesBySoonest s p rels r) ∧
      ∀ place, Vacant s target place → Undisturbed s p place →
        (∀ rel ∈ rels, ∃ data, s.content? (p.append rel).written = .ok data) →
          r = .ok () ∨ ∃ fault path, r = .error (.tags fault path) := by
  have hfiles := files_eq h.sound (h.leads.hasZero h.sound)
  obtain ⟨rels, hvisited, hrels⟩ := visited_eq_map s (s.files.height + 1) p
  rw [hvisited] at hfiles
  refine ⟨rels, hfiles, fun dirs name => ?_, hrels, pairwise_lt_iff hrels, fun target r hr => ⟨?_, ?_⟩⟩
  · obtain ⟨found, hfound, -, hexact⟩ := files_exact h
    obtain rfl := Except.ok.inj (hfound.symm.trans hfiles)
    have hmem : dirs ++ [name] ∈ rels ↔ p.append (dirs ++ [name]) ∈ rels.map p.append :=
      (List.mem_map_of_injective fun _ _ he => List.append_cancel_left (congrArg Path.parts he)).symm
    rw [hmem, hexact]
    constructor
    · rintro ⟨dirs', name', he, hprocessed⟩
      obtain ⟨rfl, hname⟩ := List.append_inj' (List.append_cancel_left (congrArg Path.parts he)) rfl
      obtain rfl := List.singleton_inj.1 hname
      exact hprocessed
    · exact fun hprocessed => ⟨dirs, name, rfl, hprocessed⟩
  · exact fun known e names hq hp => hr.goesBySoonest h.sound hq hp hrels hfiles
  · intro place hv hp hread
    refine hr.ok_or_tags h.sound hv hp (h.leads.hasZero h.sound) ?_
    rw [hvisited]
    exact List.forall_mem_map.2 hread

/-! ### Runs -/

/-- Two exercises, each with a malformed file in a subdirectory and one next to it, and an empty directory. -/
def sampleSequence : Session where
  workingDir := []
  scratch := ["tmp"]
  files := ⟨[(["s"], .directory), (["s", "a"], .directory),
    (["s", "a", "c.py"], .file (Bytes.ofString "# END SOLUTION\n") false),
    (["s", "b.py"], .file (Bytes.ofString "# END SOLUTION\n") false),
    (["t"], .directory), (["t", "a.py"], .file (Bytes.ofString "# END SOLUTION\n") false), (["t", "b"], .directory),
    (["t", "b", "c.py"], .file (Bytes.ofString "# END SOLUTION\n") false), (["out"], .directory)]⟩

theorem sampleSequence_sound : sampleSequence.Sound :=
  ⟨Files.wellFormed_of_entries (by decide +kernel), by decide +kernel⟩

theorem sampleSequence_readable (h : sampleSequence.files.get? [name] = some .directory) :
    Readable sampleSequence (Location.path [name]) [name] where
  sound := sampleSequence_sound
  leads := leadsTo_path sampleSequence_sound h
  unlocked _ _ := List.not_mem_nil
  inspected rel hrel := by
    have hanswers : ∀ e ∈ sampleSequence.files.entries,
        let ignored := (Location.path e.1).child ignoreFileName
        sampleSequence.look true ignored = .ok (sampleSequence.node? true ignored) := by decide +kernel
    have hn : sampleSequence.files.get? ([name] ++ rel) ≠ none := hrel ▸ Option.some_ne_none _
    obtain ⟨node, hmem⟩ := (Files.get?_eq_some_iff_mem (by simp)).1 hn
    exact ⟨_, hanswers _ hmem⟩

theorem sampleSequence_vacant : Vacant sampleSequence (Location.path ["out"]) ["out"] where
  leads := leadsTo_path sampleSequence_sound (by decide +kernel)
  empty := by decide +kernel

theorem sampleSequence_undisturbed (h : sampleSequence.files.get? [name] = some .directory) (hname : name ≠ "out") :
    Undisturbed sampleSequence (Location.path [name]) ["out"] := by
  refine undisturbed_of_noLink (leadsTo_path sampleSequence_sound h) (fun rel => ?_) ?_ ?_
  · exact Files.get?_ne_link (by decide +kernel) _
  · exact fun hp => hname (by simpa using hp)
  · exact fun hp => hname (by simpa [eq_comm] using hp)

/-- In the second exercise the file comes first by its path, too, and is reported. -/
theorem sampleSequence_reported : ∃ rels,
    ((files (Location.path ["t"])).perform sampleSequence).1 = .ok (rels.map (Location.path ["t"]).append) ∧
    rels = [["a.py"], ["b", "c.py"]] ∧ rels.Pairwise (· < ·) ∧
    GoesBySoonest sampleSequence (Location.path ["t"]) rels
      ((prepareSolution [Location.path ["t"]] (Location.path ["out"])).perform sampleSequence).1 ∧
    (((prepareSolution [Location.path ["t"]] (Location.path ["out"])).perform sampleSequence).1 = .ok () ∨
      ∃ fault path,
        ((prepareSolution [Location.path ["t"]] (Location.path ["out"])).perform sampleSequence).1 =
          .error (.tags fault path)) := by
  have hdir : sampleSequence.files.get? ["t"] = some .directory := by decide +kernel
  obtain ⟨rels, hfiles, -, -, hsorted, hprepared⟩ := files_sooner (sampleSequence_readable hdir)
  have hfound : ((files (Location.path ["t"])).perform sampleSequence).1 =
      .ok ([["a.py"], ["b", "c.py"]].map (Location.path ["t"]).append) := by decide +kernel
  obtain rfl : rels = [["a.py"], ["b", "c.py"]] :=
    List.map_injective_iff.2 (fun _ _ he => List.append_cancel_left (congrArg Path.parts he))
      (Except.ok.inj (hfiles.symm.trans hfound))
  have hp := sampleSequence_undisturbed hdir (by decide)
  obtain ⟨hgoes, hends⟩ := hprepared (Location.path ["out"]) _ .solution
  refine ⟨_, hfiles, rfl, by decide, ?_, hends ["out"] sampleSequence_vacant hp ?_⟩
  · exact hgoes _ _ _ (sampleSequence_vacant.destination sampleSequence_sound) (by rwa [List.take_nil, List.append_nil])
  · have hdata : ∀ rel ∈ [["a.py"], ["b", "c.py"]], sampleSequence.content? ((Location.path ["t"]).append rel).written =
        .ok (Bytes.ofString "# END SOLUTION\n") := by decide +kernel
    exact fun rel hrel => ⟨_, hdata rel hrel⟩

/-- The broken tag with which a run has failed, and its file. -/
def blamed? : Except Failure Unit → Option (TagFault × Option Path)
  | .error (.tags fault path) => some (fault, path)
  | _ => none

/-- In the first one the file comes last by its path, but it is enumerated first and reported. -/
theorem sampleSequence_not_sorted :
    let s := Location.path ["s"]
    let out := Location.path ["out"]
    let unopened : TagFault := ⟨.balance, 1, Text.ofString "# END SOLUTION\n"⟩
    Readable sampleSequence s ["s"] ∧
      ((files s).perform sampleSequence).1 = .ok [s.append ["b.py"], s.append ["a", "c.py"]] ∧
      ["a", "c.py"] < ["b.py"] ∧ Faulty sampleSequence (s.append ["a", "c.py"]) unopened ∧
      [((prepareStub s out true).perform sampleSequence).1, ((prepareStub s out false).perform sampleSequence).1,
        ((prepareSolution [s] out).perform sampleSequence).1].map blamed? =
          List.replicate 3 (some (unopened, some (s.append ["b.py"]))) := by
  refine ⟨sampleSequence_readable (by decide +kernel), by decide +kernel, by decide, ⟨by decide +kernel, ?_⟩,
    by decide +kernel⟩
  exact ⟨Bytes.ofString "# END SOLUTION\n", by decide +kernel, by decide +kernel⟩

end Handout.Exercise
